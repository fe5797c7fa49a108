import LearnGit.ScanfReg.MacPlusPlus
import Mathlib.Tactic.Ring

/-!
# `LearnGit.Proofs.ScanfReg.MacPlusPlus`: the two counters agree

`counters_agree`: for every text of a MAC address, in upper or lower case, and every number of
rounds that its value leaves room for, both loops leave the lower-case text of the value that is
larger by this number.

A text is given by its twelve characters (`macText`), with their values as digits. The first program
has a number for each group, and takes the carry from one to the next: the numbers stand for the
same value before and after (`total_carry`), and one more of them is below 256. The second program writes
the twelve digits to the front of the array and moves them to their places from the end
(`Spreading`): no place is written before its digit has been moved.
-/

set_option autoImplicit false

namespace LearnGit.Proofs.ScanfReg.MacPlusPlus

open LearnGit.Lib
open LearnGit.ScanfReg

/-! ### Statement -/

/-- The digit with this value, in upper case. -/
def upperByte (d : Nat) : UInt8 := if d < 10 then digitByte d else UInt8.ofNat (d - 10 + 0x41)

/-- The character is the hexadecimal digit with this value, in upper or lower case. -/
def IsDigit (c : UInt8) (d : Nat) : Prop := d < 16 ∧ (c = digitByte d ∨ c = upperByte d)

instance (c : UInt8) (d : Nat) : Decidable (IsDigit c d) := by
  unfold IsDigit
  infer_instance

/-- The character of a MAC text at this place. -/
def macChar (c : Nat → UInt8) (p : Nat) : UInt8 := if p % 3 = 2 then 0x3A else c (p - p / 3)

/-- The MAC text with these digits: six groups of two with colons between them. -/
def macText (c : Nat → UInt8) : List UInt8 := (List.range 17).map (macChar c)

/-- The value of the first `n` digits. -/
def value (d : Nat → Nat) : Nat → Nat
  | 0 => 0
  | n + 1 => value d n * 16 + d n

/-- The lower-case MAC text of a value. -/
def lowerText (v : Nat) : List UInt8 := macText fun i => digitByte (v / 16 ^ (12 - 1 - i) % 16)

/-! ### Digits -/

section
variable {c c' : Nat → UInt8} {d : Nat → Nat} {n i v : Nat}

/-- `n` digits are a value below `16 ^ n`. -/
theorem value_lt (hd : ∀ i < n, d i < 16) : value d n < 16 ^ n := by
  induction n with
  | zero => exact Nat.one_pos
  | succ n ih =>
    have hlt := ih fun i hi => hd i (Nat.lt_succ_of_lt hi)
    have hlast := hd n (Nat.lt_succ_self n)
    rw [value, pow_succ]
    omega

/-- The digits of a value are the ones that it was made of. -/
theorem value_digit (hd : ∀ i < n, d i < 16) (hi : i < n) :
    value d n / 16 ^ (n - 1 - i) % 16 = d i := by
  induction n with
  | zero => exact absurd hi (Nat.not_lt_zero i)
  | succ n ih =>
    have hlast := hd n (Nat.lt_succ_self n)
    rw [value]
    rcases Nat.lt_or_eq_of_le (Nat.le_of_lt_succ hi) with hlt | rfl
    -- The last digit is divided away.
    · have hexp : n + 1 - 1 - i = n - 1 - i + 1 := by omega
      have hdiv : (value d n * 16 + d n) / 16 = value d n := by omega
      rw [hexp, pow_succ', ← Nat.div_div_eq_div_mul, hdiv]
      exact ih (fun i hi => hd i (Nat.lt_succ_of_lt hi)) hlt
    · rw [Nat.add_sub_cancel, Nat.sub_self, pow_zero, Nat.div_one]
      omega

/-- A number below `16 ^ n` is the value of its digits. -/
theorem value_digits {m : Nat} (hm : m ≤ n) :
    value (fun i => v / 16 ^ (n - 1 - i) % 16) m = v / 16 ^ (n - m) % 16 ^ m := by
  induction m with
  | zero => rw [value, pow_zero, Nat.mod_one]
  | succ m ih =>
    have hexp : n - m = n - 1 - m + 1 := by omega
    have hexp' : n - (m + 1) = n - 1 - m := by omega
    rw [value, ih (by omega), hexp, hexp', pow_succ, ← Nat.div_div_eq_div_mul, pow_succ' 16 m,
      Nat.mod_mul]
    omega

/-- What `printf` writes is a digit. -/
theorem isDigit_digitByte {d : Nat} (hd : d < 16) : IsDigit (digitByte d) d := ⟨hd, .inl rfl⟩

/-- The texts depend on the twelve characters only. -/
theorem macText_congr (h : ∀ i < 12, c i = c' i) : macText c = macText c' := by
  refine List.map_congr_left fun p hp => ?_
  have hlt := List.mem_range.mp hp
  rw [macChar, macChar]
  split
  · rfl
  · exact h _ (by omega)

/-- The text of some digits is that of their value. -/
theorem macText_value (hd : ∀ i < 12, d i < 16) :
    macText (fun i => digitByte (d i)) = lowerText (value d 12) := by
  refine macText_congr fun i hi => ?_
  rw [value_digit hd hi]

/-- What both programs do with a digit. -/
theorem digit_table : ∀ d : Fin 16, ∀ c ∈ [digitByte d.val, upperByte d.val],
    MacPlusPlus.hexValue c = some d.val ∧ MacPlusPlus.isSpace c = false ∧ c ≠ 0 ∧ c ≠ 0x2D ∧
      c ≠ 0x2B ∧ c ≠ 0x78 ∧ c ≠ 0x58 := by
  decide +kernel

/-- A digit is read, and is no blank, sign, NUL or x. -/
theorem IsDigit.table {c : UInt8} {d : Nat} (h : IsDigit c d) :
    MacPlusPlus.hexValue c = some d ∧ MacPlusPlus.isSpace c = false ∧ c ≠ 0 ∧ c ≠ 0x2D ∧
      c ≠ 0x2B ∧ c ≠ 0x78 ∧ c ≠ 0x58 := by
  refine digit_table ⟨d, h.1⟩ c ?_
  rw [List.mem_cons, List.mem_singleton]
  exact h.2

/-- A MAC text has 17 characters. -/
theorem macText_length (c : Nat → UInt8) : (macText c).length = 17 := by
  rw [macText, List.length_map, List.length_range]

/-- A MAC text has no NUL. -/
theorem cStr_macText (h : ∀ i < 12, IsDigit (c i) (d i)) :
    cStr (macText c ++ [0]) = macText c := by
  refine cStr_append_zero ?_ []
  intro hzero
  obtain ⟨p, hp, heq⟩ := List.mem_map.mp hzero
  have hlt := List.mem_range.mp hp
  rw [macChar] at heq
  split at heq
  · exact absurd heq (by decide)
  · exact (h _ (by omega)).table.2.2.1 heq

end

/-! ### `mac_plus_plus.c` -/

section
open MacPlusPlus

variable {c : Nat → UInt8} {d : Nat → Nat}

/-- There is no sign to be read. -/
theorem scanSign_of_ne {a : UInt8} {rest : List UInt8} (hminus : a ≠ 0x2D) (hplus : a ≠ 0x2B) :
    scanSign (a :: rest) = (false, a :: rest) := by
  unfold scanSign
  split
  · rename_i heq
    exact absurd (List.cons.inj heq).1 hminus
  · rename_i heq
    exact absurd (List.cons.inj heq).1 hplus
  · rfl

/-- There is no 0x to be skipped. -/
theorem skipPrefix_of_ne {a b : UInt8} {rest : List UInt8} (hlower : b ≠ 0x78) (hupper : b ≠ 0x58) :
    skipPrefix (a :: b :: rest) = a :: b :: rest := by
  unfold skipPrefix
  split
  · rename_i heq
    exact absurd (List.cons.inj (List.cons.inj heq).2).1 hlower
  · rename_i heq
    exact absurd (List.cons.inj (List.cons.inj heq).2).1 hupper
  · rfl

/-- Two digits with no digit behind them. -/
theorem scanX_group {a b : UInt8} {x y : Nat} (ha : IsDigit a x) (hb : IsDigit b y)
    {rest : List UInt8} (hrest : scanDigits (x * 16 + y) rest = (x * 16 + y, rest)) :
    scanX (a :: b :: rest) = some (UInt32.ofNat (x * 16 + y), rest) := by
  obtain ⟨hvalue, hspace, -, hminus, hplus, -, -⟩ := ha.table
  obtain ⟨hvalue', -, -, -, -, hlower, hupper⟩ := hb.table
  have hx := ha.1
  have hy := hb.1
  have hscan : scanDigits 0 (a :: b :: rest) = (x * 16 + y, rest) := by
    rw [scanDigits, hvalue]
    simp only
    rw [scanDigits, hvalue']
    simp only
    rw [Nat.zero_mul, Nat.zero_add, hrest]
  have hdrop : (a :: b :: rest).dropWhile isSpace = a :: b :: rest :=
    List.dropWhile_cons_of_neg (by rw [hspace]; decide)
  have hlength : rest.length < (a :: b :: rest).length := by
    simp only [List.length_cons]
    omega
  -- There is no sign, and no `0x`, since the second character is a digit.
  rw [scanX, hdrop, scanSign_of_ne hminus hplus]
  simp only
  rw [skipPrefix_of_ne hlower hupper, hscan]
  simp only
  rw [if_pos hlength, if_pos (by omega)]
  rfl

/-- A group with a colon behind it, and the last group. -/
theorem scanFields_colon {a b : UInt8} {x y n : Nat} (ha : IsDigit a x) (hb : IsDigit b y)
    (rest : List UInt8) : scanFields (n + 1) (a :: b :: 0x3A :: rest)
      = UInt32.ofNat (x * 16 + y) :: scanFields n rest := by
  rw [scanFields, scanX_group ha hb rfl]
  rfl

/-- The last field has no colon behind it. -/
theorem scanFields_last {a b : UInt8} {x y n : Nat} (ha : IsDigit a x) (hb : IsDigit b y) :
    scanFields (n + 1) [a, b] = [UInt32.ofNat (x * 16 + y)] := by
  rw [scanFields, scanX_group ha hb rfl]

/-- Each of the six fields is the number of its two digits. -/
theorem scanFields_macText (h : ∀ i < 12, IsDigit (c i) (d i)) : scanFields 6 (macText c)
    = (List.range 6).map fun g => UInt32.ofNat (d (2 * g) * 16 + d (2 * g + 1)) := by
  have htext : macText c = [c 0, c 1, 0x3A, c 2, c 3, 0x3A, c 4, c 5, 0x3A, c 6, c 7, 0x3A, c 8,
    c 9, 0x3A, c 10, c 11] := rfl
  rw [htext, scanFields_colon (h 0 (by omega)) (h 1 (by omega)),
    scanFields_colon (h 2 (by omega)) (h 3 (by omega)),
    scanFields_colon (h 4 (by omega)) (h 5 (by omega)),
    scanFields_colon (h 6 (by omega)) (h 7 (by omega)),
    scanFields_colon (h 8 (by omega)) (h 9 (by omega)),
    scanFields_last (h 10 (by omega)) (h 11 (by omega))]
  rfl

/-! The numbers of the groups, the lowest one first. -/

/-- The value that the first `n` numbers stand for. -/
def total (mac_calc : Nat → UInt32) : Nat → Nat
  | 0 => 0
  | n + 1 => total mac_calc n + (mac_calc n).toNat * 256 ^ n

/-- The carries before `i` are done: the numbers are below 256, and the next one may be 256. -/
structure Carrying (i : Nat) (mac_calc : Nat → UInt32) : Prop where
  lt : ∀ j < 6, j ≠ i → (mac_calc j).toNat < 256
  here : (mac_calc i).toNat ≤ 256

variable {m m' : Nat → UInt32} {i n : Nat}

/-- The total depends on the first `n` numbers only. -/
theorem total_congr (h : ∀ j < n, m j = m' j) : total m n = total m' n := by
  induction n with
  | zero => rfl
  | succ n ih =>
    rw [total, total, ih fun j hj => h j (Nat.lt_succ_of_lt hj), h n (Nat.lt_succ_self n)]

/-- What stays of a number, and what is carried to the next one. -/
theorem carry_toNat {x y : UInt32} (hx : x.toNat ≤ 256) (hy : y.toNat < 256) :
    (x &&& 0xff).toNat = x.toNat % 256 ∧
      (y + ((x &&& 0x100) >>> 8)).toNat = y.toNat + x.toNat / 256 := by
  have hlow : (x &&& 0xff).toNat = x.toNat % 256 := by
    rw [UInt32.toNat_and]
    exact Nat.and_two_pow_sub_one_eq_mod x.toNat 8
  have hhigh : ((x &&& 0x100) >>> 8).toNat = x.toNat / 256 := by
    rw [UInt32.toNat_shiftRight, UInt32.toNat_and]
    show (x.toNat &&& 256) >>> 8 = x.toNat / 256
    rw [Nat.shiftRight_and_distrib, Nat.shiftRight_eq_div_pow]
    -- A number up to 256 has at most bit 8 above its low byte.
    show x.toNat / 256 &&& 1 = x.toNat / 256
    rw [Nat.and_one_is_mod]
    omega
  refine ⟨hlow, ?_⟩
  rw [UInt32.toNat_add, hhigh]
  omega

/-- A number keeps its low eight bits. -/
theorem carry_here : carry i m i = m i &&& 0xff := by
  rw [carry, Function.update_self, Function.update_of_ne (by omega)]

/-- The ninth bit is carried to the next number. -/
theorem carry_next : carry i m (i + 1) = m (i + 1) + ((m i &&& 0x100) >>> 8) := by
  rw [carry, Function.update_of_ne (by omega), Function.update_self]

/-- The other numbers stay as they are. -/
theorem carry_other {j : Nat} (hi : j ≠ i) (hnext : j ≠ i + 1) : carry i m j = m j := by
  rw [carry, Function.update_of_ne hi, Function.update_of_ne hnext]

/-- The carry does not change what the numbers stand for. -/
theorem total_carry (hx : (m i).toNat ≤ 256) (hy : (m (i + 1)).toNat < 256) (hn : i + 2 ≤ n) :
    total (carry i m) n = total m n := by
  induction n, hn using Nat.le_induction with
  | base =>
    obtain ⟨hlow, hhigh⟩ := carry_toNat hx hy
    have hbefore : total (carry i m) i = total m i :=
      total_congr fun j hj => carry_other (by omega) (by omega)
    have hsplit := Nat.div_add_mod (m i).toNat 256
    rw [total, total, total, total, hbefore, carry_here, carry_next, hlow, hhigh, pow_succ]
    -- What is taken from the number is `q` times 256, and the next one gets `q`.
    generalize (m i).toNat / 256 = q at hsplit ⊢
    generalize (m i).toNat % 256 = r at hsplit ⊢
    rw [← hsplit]
    ring
  | succ n hn ih =>
    rw [total, total, ih, carry_other (by omega) (by omega)]

/-- A carry keeps the total. -/
theorem Carrying.carry (h : Carrying i m) (hi : i + 1 < 6) :
    Carrying (i + 1) (carry i m) ∧ total (carry i m) 6 = total m 6 := by
  have hnext := h.lt (i + 1) hi (by omega)
  have hhere := h.here
  obtain ⟨hlow, hhigh⟩ := carry_toNat hhere hnext
  refine ⟨⟨fun j hj hne => ?_, ?_⟩, total_carry hhere hnext (by omega)⟩
  · by_cases hji : j = i
    · subst hji
      rw [carry_here, hlow]
      omega
    · rw [carry_other hji hne]
      exact h.lt j hj hji
  · rw [carry_next, hhigh]
    omega

/-- The increment adds one to what the numbers stand for. -/
theorem increment_total (h : ∀ j < 6, (m j).toNat < 256) :
    Carrying 5 (increment m) ∧ total (increment m) 6 = total m 6 + 1 := by
  have hfirst := h 0 (by omega)
  have hone : (m 0 + 1).toNat = (m 0).toNat + 1 := by
    rw [UInt32.toNat_add]
    show ((m 0).toNat + 1) % 2 ^ 32 = (m 0).toNat + 1
    omega
  have hstart : Carrying 0 (Function.update m 0 (m 0 + 1)) := by
    refine ⟨fun j hj hne => ?_, ?_⟩
    · rw [Function.update_of_ne hne]
      exact h j hj
    · rw [Function.update_self, hone]
      omega
  have htotal : total (Function.update m 0 (m 0 + 1)) 6 = total m 6 + 1 := by
    simp [total, hone]
    omega
  -- The five carries, from the lowest number up.
  obtain ⟨h1, ht1⟩ := hstart.carry (by omega)
  obtain ⟨h2, ht2⟩ := h1.carry (by omega)
  obtain ⟨h3, ht3⟩ := h2.carry (by omega)
  obtain ⟨h4, ht4⟩ := h3.carry (by omega)
  obtain ⟨h5, ht5⟩ := h4.carry (by omega)
  refine ⟨h5, ?_⟩
  rw [increment, ht5, ht4, ht3, ht2, ht1, htotal]

/-- The two digits of every number. -/
def groupDigits (m : Nat → UInt32) (i : Nat) : Nat :=
  (m (5 - i / 2)).toNat / 16 ^ (2 - 1 - i % 2) % 16

/-- The digits of the numbers are hexadecimal ones. -/
theorem groupDigits_lt (m : Nat → UInt32) (i : Nat) : groupDigits m i < 16 :=
  Nat.mod_lt _ (by decide)

/-- The digits of the numbers have the total as their value. -/
theorem value_groupDigits (h : ∀ j < 6, (m j).toNat < 256) :
    value (groupDigits m) 12 = total m 6 := by
  have h0 := h 0 (by omega)
  have h1 := h 1 (by omega)
  have h2 := h 2 (by omega)
  have h3 := h 3 (by omega)
  have h4 := h 4 (by omega)
  have h5 := h 5 (by omega)
  simp only [value, groupDigits, total, Nat.reduceDiv, Nat.reduceMod, Nat.reduceSub]
  omega

/-- A number below 256 is written with two digits. -/
theorem printX_eq {x : UInt32} (hx : x.toNat < 256) :
    printX x = [digitByte (x.toNat / 16 ^ (2 - 1 - 0) % 16),
      digitByte (x.toNat / 16 ^ (2 - 1 - 1) % 16)] :=
  padZeros_printNat (by decide) (by decide) hx

/-- The numbers are written as the text of their total. -/
theorem printMac_eq (h : ∀ j < 6, (m j).toNat < 256) : printMac m = lowerText (total m 6) := by
  have htext : printMac m = macText fun i => digitByte (groupDigits m i) := by
    rw [printMac, printX_eq (h 5 (by omega)), printX_eq (h 4 (by omega)),
      printX_eq (h 3 (by omega)), printX_eq (h 2 (by omega)), printX_eq (h 1 (by omega)),
      printX_eq (h 0 (by omega))]
    rfl
  rw [htext, macText_value fun i _ => groupDigits_lt m i, value_groupDigits h]

/-- The numbers that the first program reads stand for the value of the text. -/
theorem total_fields (hd : ∀ i < 12, d i < 16)
    (hm : ∀ j < 6, (m j).toNat = d (2 * (5 - j)) * 16 + d (2 * (5 - j) + 1)) :
    (∀ j < 6, (m j).toNat < 256) ∧ total m 6 = value d 12 := by
  constructor
  · intro j hj
    have hhigh := hd (2 * (5 - j)) (by omega)
    have hlow := hd (2 * (5 - j) + 1) (by omega)
    rw [hm j hj]
    omega
  · simp only [total, hm 0 (by omega), hm 1 (by omega), hm 2 (by omega), hm 3 (by omega),
      hm 4 (by omega), hm 5 (by omega), value]
    simp only [Nat.reduceSub, Nat.reduceMul, Nat.reduceAdd]
    omega

/-- A text of 17 characters fits the place of the old one. -/
theorem sprintf_macText (c : Nat → UInt8) {text : List UInt8} (htext : text.length = 17) :
    sprintf (macText c ++ [0]) text = some (text ++ [0]) := by
  have hlength : (macText c ++ [0]).length = 18 := by
    rw [List.length_append, macText_length]
    rfl
  rw [sprintf, if_pos (by omega), htext, List.drop_eq_nil_of_le (by omega)]

/-- A round of `mac_plus_plus.c` makes the text of the next value. -/
theorem round_eq (h : ∀ i < 12, IsDigit (c i) (d i)) (hv : value d 12 + 1 < 2 ^ 48) :
    MacPlusPlus.round (macText c ++ [0]) = some (lowerText (value d 12 + 1) ++ [0]) := by
  have hd : ∀ i < 12, d i < 16 := fun i hi => (h i hi).1
  have hm : ∀ j < 6, (((List.range 6).map fun g => UInt32.ofNat (d (2 * g) * 16 + d (2 * g + 1))).getD
      (5 - j) 0).toNat = d (2 * (5 - j)) * 16 + d (2 * (5 - j) + 1) := by
    intro j hj
    have hhigh := hd (2 * (5 - j)) (by omega)
    have hlow := hd (2 * (5 - j) + 1) (by omega)
    have hindex : 5 - j < 6 := by omega
    simp [List.getD, List.getElem?_range hindex]
    omega
  obtain ⟨hlt, htotal⟩ := total_fields hd hm
  obtain ⟨hcarrying, hnext⟩ := increment_total hlt
  rw [htotal] at hnext
  rw [MacPlusPlus.round, cStr_macText h, scanFields_macText h]
  simp only [List.length_map, List.length_range, ne_eq, not_true_eq_false, if_false]
  generalize increment _ = s at hcarrying hnext ⊢
  -- A highest number of 256 would stand for a value that is not below `2 ^ 48`.
  have hlast : (s 5).toNat < 256 := by
    have hhere := hcarrying.here
    simp only [total] at hnext
    omega
  have hall : ∀ j < 6, (s j).toNat < 256 := by
    intro j hj
    by_cases hj5 : j = 5
    · rwa [hj5]
    · exact hcarrying.lt j hj hj5
  have hle : ¬s 5 > 0xff := by
    rw [gt_iff_lt, UInt32.lt_iff_toNat_lt]
    show ¬255 < (s 5).toNat
    omega
  rw [if_neg hle, printMac_eq hall, hnext]
  exact sprintf_macText c (macText_length _)

end

/-! ### `mac_plus_plus_long_long.c` -/

section
open MacPlusPlusLongLong

variable {c : Nat → UInt8} {d : Nat → Nat} {mac : List UInt8}

/-- The characters of a text, whatever is behind it. -/
theorem macText_getElem? {p : Nat} (hp : p < 17) (rest : List UInt8) :
    (macText c ++ rest)[p]? = some (macChar c p) := by
  have hlength : p < (macText c).length := by rw [macText_length]; exact hp
  rw [List.getElem?_append_left hlength, macText, List.getElem?_map, List.getElem?_range hp]
  rfl

/-- A digit behind a value of at most eleven digits. -/
theorem append_eq {n x : Nat} (hn : n < 16 ^ 11) (hx : x < 16) :
    append n x = some ((n * 16 + x : Nat) : Int) := by
  have hshift : (n : Int) * 16 = ((n * 16 : Nat) : Int) := by push_cast; rfl
  rw [append, hshift, int64_of_range ⟨by omega, by omega⟩, Option.bind_eq_bind, Option.bind_some,
    int64_of_range ⟨by omega, by omega⟩]
  rfl

/-- The program takes the characters for digits that the first one does. -/
theorem readRound_digit {i x : Nat} {b : UInt8} {n : Int} (hi : mac[i]? = some b)
    (hb : MacPlusPlus.hexValue b = some x) : readRound mac i n = append n x := by
  rw [MacPlusPlus.hexValue] at hb
  rw [readRound, hi, Option.bind_eq_bind, Option.bind_some]
  -- Both programs have the three ranges of characters in the same order.
  split
  · rename_i hnumeral
    rw [if_pos hnumeral] at hb
    have hge := UInt8.le_iff_toNat_le.mp hnumeral.1
    have hx : b.toNat - 0x30 = x := Option.some_inj.mp hb
    exact congrArg (append n) (by simp at hge; omega)
  · rename_i hnumeral
    rw [if_neg hnumeral] at hb
    split
    · rename_i hlower
      rw [if_pos hlower] at hb
      have hge := UInt8.le_iff_toNat_le.mp hlower.1
      have hx : b.toNat - 0x61 + 10 = x := Option.some_inj.mp hb
      exact congrArg (append n) (by simp at hge; omega)
    · rename_i hlower
      rw [if_neg hlower] at hb
      split
      · rename_i hupper
        rw [if_pos hupper] at hb
        have hge := UInt8.le_iff_toNat_le.mp hupper.1
        have hx : b.toNat - 0x41 + 10 = x := Option.some_inj.mp hb
        exact congrArg (append n) (by simp at hge; omega)
      · rename_i hupper
        rw [if_neg hupper] at hb
        exact absurd hb (Option.some_ne_none x).symm

/-- The loop that reads the text has the value of the digits before. -/
theorem readLoop_eq (h : ∀ i < 12, IsDigit (c i) (d i)) (rest : List UInt8) :
    forUpM 0 17 (readRound (macText c ++ rest)) 0 = some (value d 12 : Int) := by
  have hloop : ∃ n, forUpM 0 17 (readRound (macText c ++ rest)) 0 = some n ∧
      n = (value d (17 - 17 / 3) : Int) := by
    refine forUpM_induct (P := fun p n => n = (value d (p - p / 3) : Int)) (Nat.zero_le 17) rfl ?_
    -- Before the place `p`, there are `p / 3` colons.
    rintro p _ - hp rfl
    have hchar := macText_getElem? (c := c) hp rest
    rw [macChar] at hchar
    split at hchar
    · rename_i hcolon
      have hsame : p + 1 - (p + 1) / 3 = p - p / 3 := by omega
      have hthree : (p + 1) % 3 = 0 := by omega
      refine ⟨_, ?_, by rw [hsame]⟩
      rw [readRound, hchar, Option.bind_eq_bind, Option.bind_some]
      simp [hthree]
    · rename_i hdigit
      have hindex : p - p / 3 < 12 := by omega
      have hnext : p + 1 - (p + 1) / 3 = p - p / 3 + 1 := by omega
      have hlt : value d (p - p / 3) < 16 ^ 11 :=
        (value_lt fun i hi => (h i (by omega)).1).trans_le
          (Nat.pow_le_pow_right (by decide) (by omega))
      have hdigit := h _ hindex
      refine ⟨_, ?_, rfl⟩
      rw [readRound_digit hchar hdigit.table.1, append_eq hlt hdigit.1, hnext, value]
  obtain ⟨n, hloop, rfl⟩ := hloop
  exact hloop

/-- A character within the array. -/
theorem load_eq {i : Nat} {b : UInt8} (h : mac[i]? = some b) : load mac i = some b := by
  rw [load, if_pos (Int.natCast_nonneg i), Int.toNat_natCast, h]

/-- The array with one character changed. -/
theorem store_eq {i : Nat} (hi : i < mac.length) (b : UInt8) :
    ∃ mac', store mac i b = some mac' ∧ mac'.length = mac.length ∧ mac'[i]? = some b ∧
      ∀ j, j ≠ i → mac'[j]? = mac[j]? := by
  refine ⟨mac.set i b, ?_, List.length_set, ?_, fun j hj => List.getElem?_set_ne hj.symm⟩
  · rw [store, if_pos ⟨Int.natCast_nonneg i, by omega⟩, Int.toNat_natCast]
  · rw [List.getElem?_set_self hi]

/-- The array before the round of `i`: the first `12 - i` digits are still in front, the places from
the last one written are final, and the NUL is at the end. -/
structure Spreading (c : Nat → UInt8) (i : Nat) (mac : List UInt8) : Prop where
  length : mac.length = 18
  front : ∀ p < 12 - i, mac[p]? = some (c p)
  back : ∀ p < 17, 17 - i - (i - 1) / 2 ≤ p → mac[p]? = some (macChar c p)
  nul : mac[17]? = some 0

/-- A round moves a digit to its place, with a colon where one belongs. -/
theorem spreadRound_spreading {i : Nat} (hi : i < 10) (h : Spreading c i mac) :
    ∃ mac', spreadRound 17 i mac = some mac' ∧ Spreading c (i + 1) mac' := by
  have hlength := h.length
  have hfrom : (11 : Int) - i = ((11 - i : Nat) : Int) := by omega
  have hto : (17 : Int) - 1 - i - i / 2 = ((16 - i - i / 2 : Nat) : Int) := by omega
  have hcolon : (17 : Int) - i - i / 2 = ((17 - i - i / 2 : Nat) : Int) := by omega
  obtain ⟨mac', hstore, hlength', hhere, hother⟩ :=
    store_eq (by omega : 16 - i - i / 2 < mac.length) (c (11 - i))
  -- The place of the digit in the text.
  have hplace : macChar c (16 - i - i / 2) = c (11 - i) := by
    have hmod : ¬(16 - i - i / 2) % 3 = 2 := by omega
    have hindex : 16 - i - i / 2 - (16 - i - i / 2) / 3 = 11 - i := by omega
    rw [macChar, if_neg hmod, hindex]
  rw [spreadRound, hfrom, load_eq (h.front (11 - i) (by omega)), hto, hcolon, Option.bind_eq_bind,
    Option.bind_some, hstore, Option.bind_eq_bind, Option.bind_some]
  split
  -- In every second round, the first digit of a group is moved, with the colon behind the group.
  · rename_i heven
    obtain ⟨mac'', hstore', hlength'', hhere', hother'⟩ :=
      store_eq (by omega : 17 - i - i / 2 < mac'.length) 0x3A
    have hplace' : macChar c (17 - i - i / 2) = 0x3A := if_pos (by omega)
    refine ⟨mac'', hstore', hlength''.trans (hlength'.trans hlength), fun p hp => ?_,
      fun p hp hback => ?_, ?_⟩
    · rw [hother' p (by omega), hother p (by omega)]
      exact h.front p (by omega)
    · by_cases hpc : p = 17 - i - i / 2
      · rw [hpc, hhere', hplace']
      · rw [hother' p hpc]
        by_cases hpd : p = 16 - i - i / 2
        · rw [hpd, hhere, hplace]
        · rw [hother p hpd]
          exact h.back p hp (by omega)
    · rw [hother' 17 (by omega), hother 17 (by omega)]
      exact h.nul
  · rename_i hodd
    refine ⟨mac', rfl, hlength'.trans hlength, fun p hp => ?_, fun p hp hback => ?_, ?_⟩
    · rw [hother p (by omega)]
      exact h.front p (by omega)
    · by_cases hpd : p = 16 - i - i / 2
      · rw [hpd, hhere, hplace]
      · rw [hother p hpd]
        exact h.back p hp (by omega)
    · rw [hother 17 (by omega)]
      exact h.nul

/-- Twelve digits at the front of the array are spread to a text. -/
theorem spread_eq (h : Spreading c 0 mac) : spread 17 mac = some (macText c ++ [0]) := by
  have hloop : ∃ mac', forUpM 0 (12 - 2) (spreadRound 17) mac = some mac' ∧ Spreading c 10 mac' :=
    forUpM_induct (Nat.zero_le 10) h fun i mac _ hi h => spreadRound_spreading hi h
  obtain ⟨mac', hloop, h'⟩ := hloop
  -- The colon behind the first group is written after the loop.
  have hlength := h'.length
  obtain ⟨mac'', hstore, hlength'', hhere, hother⟩ := store_eq (by omega : 2 < mac'.length) 0x3A
  have hall : mac'' = macText c ++ [0] := by
    refine List.ext_getElem? fun p => ?_
    rcases Nat.lt_trichotomy p 17 with hp | rfl | hp
    · rw [macText_getElem? hp]
      by_cases htwo : p = 2
      · rw [htwo, hhere]
        rfl
      · rw [hother p htwo]
        rcases Nat.lt_or_ge p 2 with hlt | hge
        · -- The first two digits are not moved.
          have hfront : macChar c p = c p := by
            have hmod : ¬p % 3 = 2 := by omega
            have hindex : p - p / 3 = p := by omega
            rw [macChar, if_neg hmod, hindex]
          rw [hfront]
          exact h'.front p (by omega)
        · exact h'.back p hp (by omega)
    · rw [hother 17 (by omega), h'.nul, List.getElem?_append_right (by rw [macText_length]),
        macText_length]
      rfl
    · have hlong : (macText c ++ [0]).length = 18 := by
        rw [List.length_append, macText_length]
        rfl
      rw [List.getElem?_eq_none (by omega), List.getElem?_eq_none (by omega)]
  rw [spread, hloop, Option.bind_eq_bind, Option.bind_some, ← hall]
  exact hstore

/-- Before the first round all digits are in front. -/
theorem spreading_start {x : Nat → UInt8} :
    Spreading x 0 ((List.range 12).map x ++ 0 :: (macText c ++ [0]).drop 13) := by
  have hfront : ((List.range 12).map x).length = 12 := by rw [List.length_map, List.length_range]
  have hback : ((macText c ++ [0]).drop 13).length = 5 := by
    rw [List.length_drop, List.length_append, macText_length]
    rfl
  refine ⟨?_, fun p hp => ?_, fun p hp hge => ?_, ?_⟩
  · rw [List.length_append, hfront, List.length_cons, hback]
  · rw [List.getElem?_append_left (by rw [hfront]; exact hp), List.getElem?_map,
      List.getElem?_range hp]
    rfl
  · omega
  · rw [List.getElem?_append_right (by rw [hfront]; omega), hfront, List.getElem?_cons_succ,
      List.getElem?_drop, List.getElem?_append_right (by rw [macText_length]), macText_length]
    rfl

/-- A round of `mac_plus_plus_long_long.c` makes the text of the next value. -/
theorem longLong_round_eq (h : ∀ i < 12, IsDigit (c i) (d i)) (hv : value d 12 + 1 < 2 ^ 48) :
    MacPlusPlusLongLong.round 17 (macText c ++ [0])
      = some (lowerText (value d 12 + 1) ++ [0]) := by
  have hnumber : ((value d 12 : Int) + 1) % 2 ^ 64 = ((value d 12 + 1 : Nat) : Int) := by omega
  have hdigits : padZeros 12 (printNat 16 (value d 12 + 1)) = (List.range 12).map fun i =>
      digitByte ((value d 12 + 1) / 16 ^ (12 - 1 - i) % 16) :=
    padZeros_printNat (by decide) (by decide) (by omega)
  have hfits : ((List.range 12).map fun i =>
      digitByte ((value d 12 + 1) / 16 ^ (12 - 1 - i) % 16)).length = 12 := by
    rw [List.length_map, List.length_range]
  have hroom : 12 < (macText c ++ [0]).length := by
    rw [List.length_append, macText_length]
    decide
  rw [MacPlusPlusLongLong.round, cStr_macText h, macText_length, readLoop_eq h,
    Option.bind_eq_bind, Option.bind_some, int64_of_range ⟨by omega, by omega⟩,
    Option.bind_eq_bind, Option.bind_some, hnumber, Int.toNat_natCast, hdigits, sprintf, hfits,
    if_pos hroom, Option.bind_some]
  exact spread_eq spreading_start

end

/-! ### The theorem -/

/-- What one round does, the rounds do one after the other. -/
theorem iterations_eq {round : List UInt8 → Option (List UInt8)}
    (hround : ∀ (c : Nat → UInt8) (d : Nat → Nat), (∀ i < 12, IsDigit (c i) (d i)) →
      value d 12 + 1 < 2 ^ 48 → round (macText c ++ [0]) = some (lowerText (value d 12 + 1) ++ [0]))
    {c : Nat → UInt8} {d : Nat → Nat} (h : ∀ i < 12, IsDigit (c i) (d i)) {k : Nat} (hk : 1 ≤ k)
    (hv : value d 12 + k < 2 ^ 48) :
    iterations round k (macText c ++ [0]) = some (lowerText (value d 12 + k) ++ [0]) := by
  -- The text behind the first round has lower-case digits again.
  induction k, hk using Nat.le_induction generalizing c d with
  | base =>
    rw [iterations, hround c d h hv]
    rfl
  | succ k hk ih =>
    have hnext : ∀ i < 12, IsDigit (digitByte ((value d 12 + 1) / 16 ^ (12 - 1 - i) % 16))
        ((value d 12 + 1) / 16 ^ (12 - 1 - i) % 16) :=
      fun i _ => isDigit_digitByte (Nat.mod_lt _ (by decide))
    have hvalue : value (fun i => (value d 12 + 1) / 16 ^ (12 - 1 - i) % 16) 12
        = value d 12 + 1 := by
      rw [value_digits (Nat.le_refl 12), Nat.sub_self, pow_zero, Nat.div_one]
      exact Nat.mod_eq_of_lt (by omega)
    have hrest := ih hnext (by rw [hvalue]; omega)
    rw [hvalue] at hrest
    rw [iterations, hround c d h (by omega), Option.bind_some, lowerText, hrest]
    have hsum : value d 12 + 1 + k = value d 12 + (k + 1) := by omega
    rw [hsum]

/-- For every MAC text and every number of rounds that keeps its value below `2 ^ 48`, both loops
leave the lower-case text of the value plus the number of the rounds. -/
theorem counters_agree (c : Nat → UInt8) (d : Nat → Nat) (h : ∀ i < 12, IsDigit (c i) (d i))
    (k : Nat) (hk : 1 ≤ k) (hv : value d 12 + k < 2 ^ 48) :
    iterations MacPlusPlus.round k (macText c ++ [0])
        = some (lowerText (value d 12 + k) ++ [0]) ∧
      MacPlusPlusLongLong.rounds k (macText c ++ [0])
        = some (lowerText (value d 12 + k) ++ [0]) := by
  refine ⟨iterations_eq (fun c d => round_eq) h hk hv, ?_⟩
  rw [MacPlusPlusLongLong.rounds, cStr_macText h, macText_length]
  exact iterations_eq (fun c d => longLong_round_eq) h hk hv

/-- Twelve rounds from `"00:0C:29:54:E2:F4"`, the text of both programs. -/
theorem counters_agree_example :
    let c := fun i => [0x30, 0x30, 0x30, 0x43, 0x32, 0x39, 0x35, 0x34, 0x45, 0x32, 0x46, 0x34].getD i 0
    let d := fun i => [0, 0, 0, 12, 2, 9, 5, 4, 14, 2, 15, 4].getD i 0
    iterations MacPlusPlus.round 12 (macText c ++ [0])
        = some (lowerText (value d 12 + 12) ++ [0]) ∧
      MacPlusPlusLongLong.rounds 12 (macText c ++ [0])
        = some (lowerText (value d 12 + 12) ++ [0]) :=
  counters_agree _ _ (by decide +kernel) 12 (by decide) (by decide)

end LearnGit.Proofs.ScanfReg.MacPlusPlus
