import LearnGit.FileTransfer.SplitStr
import LearnGit.Lib.Tokens

/-!
# `LearnGit.Proofs.FileTransfer.SplitStr`: which part `splitStr` takes

`tokenAt` says which run of a string a number stands for. `splitStr` takes it as long as its
arithmetic stays inside an `int` (`splitStr_takes_token_iff`).

* `reverseStr_eq`: the loop reverses as many bytes as the `int` says, and leaves the others.
* `findToken_eq`: the calls of `strtok` go through the runs.
* `splitStr_slash`: what `Basic` has for the clients is this function.
-/

set_option autoImplicit false

namespace LearnGit.Proofs.FileTransfer

open LearnGit.Lib
open LearnGit.FileTransfer hiding splitStr
open LearnGit.FileTransfer.Client

/-! ### `reverseStr` -/

/-- A swap keeps the length. -/
theorem swapBytes_length (str : List Byte) (i j : Nat) :
    (swapBytes str i j).length = str.length := by
  rw [swapBytes, List.length_set, List.length_set]

/-- A swap changes two bytes. -/
theorem getElem?_swapBytes {str : List Byte} {i j : Nat} (hi : i < str.length)
    (hj : j < str.length) (k : Nat) :
    (swapBytes str i j)[k]? = if k = j then str[i]? else if k = i then str[j]? else str[k]? := by
  have hget : ∀ {m : Nat}, m < str.length → some (str.getD m 0) = str[m]? := by
    intro m hm
    rw [List.getD_eq_getElem?_getD, List.getElem?_eq_getElem hm, Option.getD_some]
  rw [swapBytes, List.getElem?_set, List.getElem?_set, List.length_set]
  by_cases hkj : k = j
  · rw [if_pos hkj.symm, if_pos (hkj ▸ hj), if_pos hkj, hget hi]
  · rw [if_neg (Ne.symm hkj), if_neg hkj]
    by_cases hki : k = i
    · rw [if_pos hki.symm, if_pos (hki ▸ hi), if_pos hki, hget hj]
    · rw [if_neg (Ne.symm hki), if_neg hki]

/-- `str` after the rounds below `i` of the loop over its first `n` bytes. -/
def Swapped (str : List Byte) (n i : Nat) (s : List Byte) : Prop :=
  s.length = str.length ∧
    ∀ k, s[k]? = if k < i ∨ (n - i ≤ k ∧ k < n) then str[n - 1 - k]? else str[k]?

/-- One round swaps the next pair. -/
theorem Swapped.round {str s : List Byte} {n i : Nat} (hn : n ≤ str.length) (hi : 2 * i + 1 < n)
    (h : Swapped str n i s) : Swapped str n (i + 1) (swapBytes s i (n - i - 1)) := by
  obtain ⟨hlen, hget⟩ := h
  refine ⟨(swapBytes_length _ _ _).trans hlen, fun k => ?_⟩
  have hfront : s[i]? = str[i]? := by rw [hget i, if_neg (by omega)]
  have hback : s[n - i - 1]? = str[n - i - 1]? := by rw [hget, if_neg (by omega)]
  rw [getElem?_swapBytes (by omega) (by omega), hfront, hback, hget k]
  by_cases hkj : k = n - i - 1
  · rw [if_pos hkj, if_pos (by omega)]
    congr 1
    omega
  · rw [if_neg hkj]
    by_cases hki : k = i
    · rw [if_pos hki, if_pos (by omega)]
      congr 1
      omega
    · rw [if_neg hki]
      by_cases hk : k < i ∨ (n - i ≤ k ∧ k < n)
      · rw [if_pos hk, if_pos (by omega)]
      · rw [if_neg hk, if_neg (by omega)]

/-- At half of the length all bytes are reversed. -/
theorem Swapped.eq_of_half {str s : List Byte} {n : Nat} (hn : n ≤ str.length)
    (h : Swapped str n (n / 2) s) : s = (str.take n).reverse ++ str.drop n := by
  refine List.ext_getElem? fun k => ?_
  have hlen : (str.take n).reverse.length = n := by
    rw [List.length_reverse, List.length_take]
    omega
  rw [h.2 k]
  by_cases hk : k < n
  · rw [List.getElem?_append_left (by omega), List.getElem?_reverse (by simpa using ⟨hk, by omega⟩),
      List.length_take, Nat.min_eq_left hn, List.getElem?_take_of_lt (by omega)]
    by_cases hhalf : k < n / 2 ∨ (n - n / 2 ≤ k ∧ k < n)
    · rw [if_pos hhalf]
    · -- The byte in the middle of an odd number of them stays.
      rw [if_neg hhalf]
      congr 1
      omega
  · rw [if_neg (by omega), List.getElem?_append_right (by omega), hlen, List.getElem?_drop]
    congr 1
    omega

/-- How many bytes `reverseStr` reverses. -/
def reversedBytes (n : Nat) : Nat := (toInt32 n).toNat

/-- The number that an `int` makes of a length. -/
theorem toInt32_eq (n : Nat) :
    toInt32 n = if n % 2 ^ 32 < 2 ^ 31 then ((n % 2 ^ 32 : Nat) : Int)
      else ((n % 2 ^ 32 : Nat) : Int) - 2 ^ 32 := by
  rw [toInt32, BitVec.toInt_eq_toNat_cond, BitVec.toNat_ofNat]
  by_cases h : n % 2 ^ 32 < 2 ^ 31
  · rw [if_pos h, if_pos (by omega)]
  · rw [if_neg h, if_neg (by omega)]
    rfl

/-- No more bytes are reversed than there are. -/
theorem reversedBytes_le (n : Nat) : reversedBytes n ≤ n := by
  rw [reversedBytes, toInt32_eq]
  split <;> omega

/-- All bytes are reversed of a length that is an `int`. -/
theorem reversedBytes_of_lt {n : Nat} (h : n < 2 ^ 31) : reversedBytes n = n := by
  rw [reversedBytes, toInt32_of_lt h, Int.toNat_natCast]

/-- Of a string that is too long for an `int`, less than all but two bytes are reversed. -/
theorem reversedBytes_of_ge {n : Nat} (h : 2 ^ 31 ≤ n) : reversedBytes n + 2 ≤ n := by
  rw [reversedBytes, toInt32_eq]
  split <;> omega

/-- `reverseStr` reverses the bytes that its `int` counts, and leaves the others. -/
theorem reverseStr_eq (str : List Byte) :
    reverseStr str = (str.take (reversedBytes str.length)).reverse
      ++ str.drop (reversedBytes str.length) := by
  have hle := reversedBytes_le str.length
  rw [reverseStr]
  split
  · rename_i hone
    obtain ⟨c, rfl⟩ := List.length_eq_one_iff.mp hone
    rfl
  · generalize hn : reversedBytes str.length = n at hle ⊢
    have hrounds : ((toInt32 str.length).tdiv 2).toNat = n / 2 := by
      rw [← hn, reversedBytes]
      rcases Int.le_total 0 (toInt32 str.length) with h | h
      · rw [Int.tdiv_eq_ediv_of_nonneg h]
        omega
      · have hdiv : (toInt32 str.length).tdiv 2 ≤ 0 := by
          rw [show toInt32 str.length = -(-toInt32 str.length) by omega, Int.neg_tdiv,
            Int.tdiv_eq_ediv_of_nonneg (by omega)]
          omega
        omega
    refine Swapped.eq_of_half hle ?_
    show Swapped str n (n / 2) (forUp 0 ((toInt32 str.length).tdiv 2).toNat _ str)
    have hloop : Swapped str n ((toInt32 str.length).tdiv 2).toNat
        (forUp 0 ((toInt32 str.length).tdiv 2).toNat
          (fun i _ _ str' => swapBytes str' i (toInt32 str.length - i - 1).toNat) str) := by
      refine forUp_induct (P := Swapped str n) (Nat.zero_le _) ⟨rfl, fun k => ?_⟩ ?_
      · rw [if_neg (by omega)]
      · intro i _ hi s hs
        rw [hrounds] at hi
        have hindex : (toInt32 str.length - i - 1).toNat = n - i - 1 := by
          rw [← hn, reversedBytes]
          omega
        rw [hindex]
        exact hs.round hle (by omega)
    rwa [hrounds] at hloop ⊢

/-- A string whose length is an `int` is reversed. -/
theorem reverseStr_of_lt {str : List Byte} (h : str.length < 2 ^ 31) :
    reverseStr str = str.reverse := by
  rw [reverseStr_eq, reversedBytes_of_lt h, List.take_length, List.drop_length, List.append_nil]

/-- The length stays. -/
theorem reverseStr_length (str : List Byte) : (reverseStr str).length = str.length := by
  rw [reverseStr_eq, List.length_append, List.length_reverse, List.length_take, List.length_drop]
  omega

/-- The delimiters stay the same bytes. -/
theorem mem_reverseStr {str : List Byte} {c : Byte} : c ∈ reverseStr str ↔ c ∈ str := by
  rw [reverseStr_eq, List.mem_append, List.mem_reverse, ← List.mem_append, List.take_append_drop]

/-! ### The tokens -/

/-- The maximal runs of bytes of a string that are no delimiters. -/
def tokens (flag str : List Byte) : List (List Byte) := runs (flag.contains ·) str

/-- The delimiters in any order have the same tokens. -/
theorem tokens_reverseStr_flag (flag str : List Byte) :
    tokens (reverseStr flag) str = tokens flag str := by
  have hcontains : (fun c => (reverseStr flag).contains c) = fun c => flag.contains c := by
    funext c
    rw [Bool.eq_iff_iff, List.contains_iff_mem, List.contains_iff_mem, mem_reverseStr]
  rw [tokens, hcontains, tokens]

/-- A call of `strtok` returns the first run and leaves the others. -/
theorem strtok_spec (delim save : List Byte) :
    (strtok delim save).1 = (tokens delim save).head?
      ∧ tokens delim (strtok delim save).2 = (tokens delim save).tail := by
  cases h : save.dropWhile (delim.contains ·) with
  | nil =>
    have hstep : strtok delim save = (none, []) := by simp only [strtok, h]
    rw [hstep, tokens, runs_of_dropWhile_nil h, tokens, runs_nil]
    exact ⟨rfl, rfl⟩
  | cons c str =>
    have hstep : strtok delim save = (some ((c :: str).takeWhile (!delim.contains ·)),
        ((c :: str).dropWhile (!delim.contains ·)).tail) := by simp only [strtok, h]
    rw [hstep, tokens, runs_of_dropWhile_cons h]
    exact ⟨rfl, rfl⟩

/-- The calls of `strtok` return one token after the other. -/
theorem strtokLoop_eq {splitingFlag : List Byte} (rounds : Nat) {save : List Byte}
    {toks : List (List Byte)} (h : tokens splitingFlag save = toks.tail) :
    strtokLoop splitingFlag rounds toks.head? save = toks[rounds]? := by
  induction rounds generalizing save toks with
  | zero =>
    rw [strtokLoop]
    cases toks with
    | nil => rfl
    | cons tok toks => rfl
  | succ rounds ih =>
    cases toks with
    | nil => rfl
    | cons tok toks =>
      have hstep := strtok_spec splitingFlag save
      rw [h, List.tail_cons] at hstep
      show strtokLoop splitingFlag rounds (strtok splitingFlag save).1 (strtok splitingFlag save).2
        = (tok :: toks)[rounds + 1]?
      rw [hstep.1, ih hstep.2, List.getElem?_cons_succ]

/-- A positive number takes the token with it. -/
theorem findToken_eq (splitedString splitingFlag : List Byte) {num : Int} (hnum : 1 ≤ num) :
    findToken splitedString splitingFlag num
      = (tokens splitingFlag splitedString)[(num - 1).toNat]? := by
  obtain ⟨hfirst, hrest⟩ := strtok_spec splitingFlag splitedString
  have hloop := strtokLoop_eq (num - 1).toNat hrest
  show (if (strtok splitingFlag splitedString).1 ≠ none ∧ num ≠ 1 then
      strtokLoop splitingFlag (num - 1).toNat (strtok splitingFlag splitedString).1
        (strtok splitingFlag splitedString).2
    else (strtok splitingFlag splitedString).1) = _
  rw [hfirst]
  split
  · exact hloop
  · -- Without a round of the loop there is no token, or the first one is the one.
    rename_i hnot
    rw [not_and_or, not_not, not_not] at hnot
    rcases hnot with hnone | rfl
    · rw [List.head?_eq_none_iff.mp hnone]
      rfl
    · exact hloop

/-! ### `splitStr` -/

/-- The run that a number stands for: the positive numbers count from the front, the others from
the end. -/
def tokenAt (str flag : List Byte) (num : Int) : Option (List Byte) :=
  if 1 ≤ num then (tokens flag str)[(num - 1).toNat]? else (tokens flag str).reverse[(-num).toNat]?

/-- `splitStr` yields the run, or a null pointer when there is none. -/
def TakesToken (str flag : List Byte) (num : Int32) : Prop :=
  splitStr str flag num = .ok (tokenAt str flag num.toInt)

/-- Positive numbers take the right token. -/
theorem takesToken_of_pos (str flag : List Byte) {num : Int32} (hnum : 1 ≤ num.toInt) :
    TakesToken str flag num := by
  rw [TakesToken, splitStr, if_neg (by omega), findToken_eq str flag hnum, tokenAt, if_pos hnum]

/-- The other numbers take a token of the reversed string. -/
theorem splitStr_of_nonpos (str flag : List Byte) {num : Int32} (hnum : num.toInt ≤ 0)
    (hfits : -(2 ^ 31 - 1) < num.toInt) :
    splitStr str flag num
      = .ok ((tokens flag (reverseStr str))[(-num.toInt).toNat]?.map reverseStr) := by
  have hindex : 0 - num.toInt + 1 - 1 = -num.toInt := by omega
  rw [splitStr, if_pos hnum, if_neg (by omega), findToken_eq _ _ (by omega),
    tokens_reverseStr_flag, hindex]

/-- It is the right one of a string whose length is an `int`. -/
theorem takesToken_of_nonpos {str : List Byte} (flag : List Byte) {num : Int32}
    (hnum : num.toInt ≤ 0) (hfits : -(2 ^ 31 - 1) < num.toInt) (hlen : str.length < 2 ^ 31) :
    TakesToken str flag num := by
  have hback : ∀ tok ∈ tokens flag str, reverseStr tok.reverse = tok := by
    intro tok htok
    have htoklen := length_le_of_mem_runs htok
    rw [reverseStr_of_lt (by rw [List.length_reverse]; omega), List.reverse_reverse]
  have hrev : tokens flag (reverseStr str) = ((tokens flag str).map List.reverse).reverse := by
    rw [reverseStr_of_lt hlen]
    exact runs_reverse str
  rw [TakesToken, splitStr_of_nonpos str flag hnum hfits, hrev, tokenAt, if_neg (by omega),
    ← List.map_reverse, List.getElem?_map, Option.map_map]
  refine congrArg Except.ok ?_
  cases htok : (tokens flag str).reverse[(-num.toInt).toNat]? with
  | none => rfl
  | some tok =>
    have hmem : tok ∈ tokens flag str := List.mem_reverse.mp (List.mem_of_getElem? htok)
    exact congrArg some (hback tok hmem)

/-- Behind the end of the `int` the result is not defined. -/
theorem not_takesToken_of_overflow (str flag : List Byte) {num : Int32}
    (hnum : num.toInt ≤ -(2 ^ 31 - 1)) : ¬TakesToken str flag num := by
  intro h
  rw [TakesToken, splitStr, if_pos (by omega), if_pos (by omega)] at h
  cases h

def COMMA : Byte := 0x2C

/-- A string of this length whose last run is one byte. -/
def longString (n : Nat) : List Byte := List.replicate (n - 2) 0x62 ++ [COMMA, 0x61]

/-- The string has the length. -/
theorem longString_length {n : Nat} (h : 2 ≤ n) : (longString n).length = n := by
  rw [longString, List.length_append, List.length_replicate]
  show n - 2 + 2 = n
  omega

/-- One byte is one token. -/
theorem tokens_a : tokens [COMMA] [0x61] = [[0x61]] := by
  refine runs_eq_singleton ?_ (List.cons_ne_nil _ _)
  intro c hc
  rw [List.mem_singleton.mp hc]
  decide

/-- The string has two tokens. -/
theorem tokens_longString {n : Nat} (h : 3 ≤ n) :
    tokens [COMMA] (longString n) = [List.replicate (n - 2) 0x62, [0x61]] := by
  have hfree : ∀ c ∈ List.replicate (n - 2) (0x62 : Byte), ([COMMA].contains c) = false := by
    intro c hc
    rw [List.eq_of_mem_replicate hc]
    decide
  have hne : List.replicate (n - 2) (0x62 : Byte) ≠ [] := by
    intro hnil
    have := congrArg List.length hnil
    rw [List.length_replicate, List.length_nil] at this
    omega
  have hlast : runs ([COMMA].contains ·) [(0x61 : Byte)] = [[0x61]] := tokens_a
  rw [tokens, longString, runs_append_cons _ _ (by decide), runs_eq_singleton hfree hne, hlast]
  rfl

/-- The bytes that `reverseStr` counts in a string that is too long are all in its first run. -/
theorem reverseStr_longString {n : Nat} (h : 2 ^ 31 ≤ n) :
    reverseStr (longString n) = longString n := by
  have hbound := reversedBytes_of_ge h
  have hlen : (longString n).length = n := longString_length (by omega)
  rw [reverseStr_eq, hlen]
  have htake : (longString n).take (reversedBytes n) = List.replicate (reversedBytes n) 0x62 := by
    rw [longString, List.take_append_of_le_length (by rw [List.length_replicate]; omega),
      List.take_replicate, Nat.min_eq_left (by omega)]
  rw [htake, List.reverse_replicate, ← htake, List.take_append_drop]

/-- The last token of a longer string is not taken. -/
theorem not_takesToken_longString {n : Nat} (h : 2 ^ 31 ≤ n) :
    ¬TakesToken (longString n) [COMMA] 0 := by
  intro htakes
  have hzero : (0 : Int32).toInt = 0 := rfl
  rw [TakesToken, splitStr_of_nonpos _ _ (by omega) (by omega), reverseStr_longString h, tokenAt,
    if_neg (by omega), tokens_longString (by omega), hzero] at htakes
  have hfirst : some (reverseStr (List.replicate (n - 2) 0x62)) = some [(0x61 : Byte)] :=
    Except.ok.inj htakes
  have hlen := congrArg List.length (Option.some.inj hfirst)
  rw [reverseStr_length, List.length_replicate, List.length_singleton] at hlen
  omega

/-- A run after each of `k` delimiters. -/
def commaRuns (k : Nat) : List Byte := (List.replicate k [COMMA, 0x61]).flatten

/-- One more delimiter and token. -/
theorem commaRuns_succ (k : Nat) : commaRuns (k + 1) = commaRuns k ++ [COMMA, 0x61] := by
  rw [commaRuns, List.replicate_succ', List.flatten_append, List.flatten_singleton, commaRuns]

/-- A token is one byte, and so is its delimiter. -/
theorem commaRuns_length (k : Nat) : (commaRuns k).length = 2 * k := by
  induction k with
  | zero => rfl
  | succ k ih =>
    rw [commaRuns_succ, List.length_append, ih]
    rfl

/-- The tokens behind others. -/
theorem tokens_append_commaRuns (front : List Byte) (k : Nat) :
    tokens [COMMA] (front ++ commaRuns k)
      = tokens [COMMA] front ++ List.replicate k [(0x61 : Byte)] := by
  induction k with
  | zero => rw [commaRuns, List.replicate_zero, List.flatten_nil, List.append_nil,
      List.replicate_zero, List.append_nil]
  | succ k ih =>
    have hcut : tokens [COMMA] (front ++ commaRuns (k + 1))
        = tokens [COMMA] (front ++ commaRuns k) ++ tokens [COMMA] [0x61] := by
      rw [commaRuns_succ, ← List.append_assoc]
      exact runs_append_cons _ _ (by decide)
    rw [hcut, ih, tokens_a, List.append_assoc, List.replicate_succ']

/-- A string of `n` bytes with `k + 1` runs. The first run is one byte, which is nowhere else. -/
def markedString (n k : Nat) : List Byte :=
  0x62 :: (List.replicate (n - 1 - 2 * k) COMMA ++ commaRuns k)

/-- The string has the length. -/
theorem markedString_length {n k : Nat} (h : 2 * k + 1 ≤ n) : (markedString n k).length = n := by
  rw [markedString, List.length_cons, List.length_append, List.length_replicate, commaRuns_length]
  omega

/-- The tokens of the marked string. -/
theorem tokens_markedString (n k : Nat) :
    tokens [COMMA] (markedString n k) = [0x62] :: List.replicate k [0x61] := by
  have hfront : tokens [COMMA] (0x62 :: List.replicate (n - 1 - 2 * k) COMMA) = [[0x62]] := by
    have hfree : ∀ c ∈ [(0x62 : Byte)], ([COMMA].contains c) = false := by
      intro c hc
      rw [List.mem_singleton.mp hc]
      decide
    cases n - 1 - 2 * k with
    | zero => exact runs_eq_singleton hfree (List.cons_ne_nil _ _)
    | succ j =>
      have hnil : (List.replicate j COMMA).dropWhile ([COMMA].contains ·) = [] := by
        refine List.dropWhile_eq_nil_iff.mpr fun c hc => ?_
        rw [List.eq_of_mem_replicate hc]
        decide
      have hcut : runs ([COMMA].contains ·) ([0x62] ++ COMMA :: List.replicate j COMMA)
          = runs ([COMMA].contains ·) [0x62] ++ runs ([COMMA].contains ·) (List.replicate j COMMA) :=
        runs_append_cons _ _ (by decide)
      rw [runs_of_dropWhile_nil hnil, runs_eq_singleton hfree (List.cons_ne_nil _ _)] at hcut
      exact hcut
  rw [markedString, ← List.cons_append, tokens_append_commaRuns, hfront, List.singleton_append]

/-- The first byte does not occur again. -/
theorem not_mem_tail_markedString (n k : Nat) :
    (0x62 : Byte) ∉ List.replicate (n - 1 - 2 * k) COMMA ++ commaRuns k := by
  intro hmem
  rcases List.mem_append.mp hmem with hmem | hmem
  · exact absurd (List.eq_of_mem_replicate hmem) (by decide)
  · obtain ⟨l, hl, hmem⟩ := List.mem_flatten.mp hmem
    rw [List.eq_of_mem_replicate hl] at hmem
    exact absurd hmem (by decide)

/-- The byte at the front after `reverseStr`. -/
theorem exists_reverse_front (b : Byte) (str : List Byte) (m : Nat) :
    ∃ x y, ((b :: str).take m).reverse ++ (b :: str).drop m = x ++ b :: y
      ∧ x.Sublist (str.take (m - 1)).reverse ∧ y.Sublist str := by
  cases m with
  | zero => exact ⟨[], str, rfl, List.nil_sublist _, List.Sublist.refl _⟩
  | succ m =>
    refine ⟨(str.take m).reverse, str.drop m, ?_, List.Sublist.refl _, List.drop_sublist m str⟩
    rw [List.take_succ_cons, List.reverse_cons, List.drop_succ_cons, List.append_assoc,
      List.singleton_append]

/-- The last run of the string is not among the bytes that `reverseStr` counts. -/
theorem countP_take_markedString {n k m : Nat} (hn : 2 * (k + 1) + 1 ≤ n) (hm : m + 2 ≤ n) :
    ((List.replicate (n - 1 - 2 * (k + 1)) COMMA ++ commaRuns (k + 1)).take (m - 1)).countP
      (fun c => !([COMMA].contains c)) ≤ k := by
  have hcommas : ∀ j, (List.replicate j COMMA).countP (fun c => !([COMMA].contains c)) = 0 := by
    intro j
    refine List.countP_eq_zero.mpr fun c hc => ?_
    rw [List.eq_of_mem_replicate hc]
    decide
  have hruns : ∀ j, (commaRuns j).countP (fun c => !([COMMA].contains c)) = j := by
    intro j
    induction j with
    | zero => rfl
    | succ j ih =>
      rw [commaRuns_succ, List.countP_append, ih]
      rfl
  rw [commaRuns_succ, ← List.append_assoc, List.take_append_of_le_length]
  · calc _ ≤ (List.replicate (n - 1 - 2 * (k + 1)) COMMA ++ commaRuns k).countP
          (fun c => !([COMMA].contains c)) := (List.take_sublist _ _).countP_le
      _ = k := by rw [List.countP_append, hcommas, hruns, Nat.zero_add]
  · rw [List.length_append, List.length_replicate, commaRuns_length]
    omega

/-- For every other number there is a string that is too long. -/
theorem not_takesToken_markedString {n k : Nat} (h : 2 ^ 31 ≤ n) (hk : 2 * (k + 1) + 1 ≤ n)
    {num : Int32} (hnum : num.toInt = -((k + 1 : Nat) : Int)) (hfits : -(2 ^ 31 - 1) < num.toInt) :
    ¬TakesToken (markedString n (k + 1)) [COMMA] num := by
  intro htakes
  have hindex : (-num.toInt).toNat = k + 1 := by omega
  have hbound := reversedBytes_of_ge h
  -- The run that the number stands for is the first one.
  have hfirst : (tokens [COMMA] (markedString n (k + 1))).reverse[k + 1]? = some [0x62] := by
    rw [tokens_markedString, List.reverse_cons, List.reverse_replicate,
      List.getElem?_append_right (by rw [List.length_replicate]), List.length_replicate,
      Nat.sub_self]
    rfl
  rw [TakesToken, splitStr_of_nonpos _ _ (by omega) hfits, tokenAt, if_neg (by omega), hindex,
    hfirst] at htakes
  obtain ⟨run, hrun, hback⟩ := Option.map_eq_some_iff.mp (Except.ok.inj htakes)
  have hmem : (0x62 : Byte) ∈ run := by
    rw [← mem_reverseStr, hback]
    exact List.mem_singleton_self _
  -- In the string that `strtok` sees, too few runs stand before its byte.
  obtain ⟨x, y, hxy, hx, hy⟩ := exists_reverse_front 0x62
    (List.replicate (n - 1 - 2 * (k + 1)) COMMA ++ commaRuns (k + 1)) (reversedBytes n)
  have hrev : reverseStr (markedString n (k + 1)) = x ++ 0x62 :: y := by
    rw [reverseStr_eq, markedString_length hk]
    exact hxy
  rw [hrev] at hrun
  have hle := index_le_of_mem_runs (by decide)
    (fun hin => not_mem_tail_markedString n (k + 1) (hy.subset hin)) hrun hmem
  have hcount : (runs ([COMMA].contains ·) x).length ≤ k :=
    calc _ ≤ x.countP (fun c => !([COMMA].contains c)) := runs_length_le_countP _ x
      _ ≤ _ := hx.countP_le
      _ ≤ k := by
        rw [List.countP_reverse]
        exact countP_take_markedString hk hbound
  omega

/-- Where a string has no room for the runs, none is found. -/
theorem takesToken_of_short {str : List Byte} (flag : List Byte) {num : Int32}
    (hfits : -(2 ^ 31 - 1) < num.toInt) (hshort : (str.length : Int) < 1 - 2 * num.toInt) :
    TakesToken str flag num := by
  have hbound := runs_length_le (flag.contains ·) str
  have hbound' := runs_length_le (flag.contains ·) (reverseStr str)
  rw [reverseStr_length] at hbound'
  have hnone : (tokens flag (reverseStr str))[(-num.toInt).toNat]? = none :=
    List.getElem?_eq_none (by rw [tokens]; omega)
  have hnone' : (tokens flag str).reverse[(-num.toInt).toNat]? = none :=
    List.getElem?_eq_none (by rw [List.length_reverse, tokens]; omega)
  rw [TakesToken, splitStr_of_nonpos str flag (by omega) hfits, hnone, tokenAt, if_neg (by omega),
    hnone']
  rfl

/-- `splitStr` takes the run that the number stands for from all strings of a length exactly when
the number counts from the front, or counts from the end and `1 - num` is an `int`, and the length
is an `int` too or leaves no room for that many runs. -/
theorem splitStr_takes_token_iff (n : Nat) (num : Int32) :
    (∀ str flag : List Byte, str.length = n → TakesToken str flag num) ↔
      1 ≤ num.toInt
        ∨ (-(2 ^ 31 - 1) < num.toInt ∧ (n < 2 ^ 31 ∨ (n : Int) < 1 - 2 * num.toInt)) := by
  constructor
  · intro hall
    by_contra hnot
    rw [not_or, not_and_or] at hnot
    by_cases hfits : -(2 ^ 31 - 1) < num.toInt
    · have hlong := hnot.2.resolve_left (not_not.mpr hfits)
      rw [not_or] at hlong
      cases hk : (-num.toInt).toNat with
      | zero =>
        have hzero : num = 0 := Int32.toInt_inj.mp (show num.toInt = 0 by omega)
        refine not_takesToken_longString (n := n) (by omega) ?_
        exact hzero ▸ hall _ _ (longString_length (by omega))
      | succ k =>
        refine not_takesToken_markedString (n := n) (k := k) (by omega) (by omega) (by omega) hfits ?_
        exact hall _ _ (markedString_length (by omega))
    · exact not_takesToken_of_overflow _ [] (by omega)
        (hall (List.replicate n 0) [] List.length_replicate)
  · rintro h str flag rfl
    by_cases hpos : 1 ≤ num.toInt
    · exact takesToken_of_pos str flag hpos
    · obtain ⟨hfits, hlen | hshort⟩ := h.resolve_left hpos
      · exact takesToken_of_nonpos flag (by omega) hfits hlen
      · exact takesToken_of_short flag hfits hshort

/-- The last run of `a,b`. -/
theorem splitStr_takes_last : TakesToken [0x61, COMMA, 0x62] [COMMA] 0 :=
  (splitStr_takes_token_iff 3 0).mpr (.inr ⟨by decide, .inl (by decide)⟩) _ _ rfl

/-- `splitStr("a", ",", -2147483647)`: there are not 2147483648 runs, and the result is no null
pointer. -/
theorem splitStr_overflow :
    tokenAt [0x61] [COMMA] (Int32.ofInt (-2147483647)).toInt = none
      ∧ splitStr [0x61] [COMMA] (Int32.ofInt (-2147483647)) ≠ .ok none := by
  have hnum : (Int32.ofInt (-2147483647)).toInt = -2147483647 := by decide
  have hnone : tokenAt [0x61] [COMMA] (Int32.ofInt (-2147483647)).toInt = none := by
    rw [tokenAt, hnum, if_neg (by decide), tokens_a]
    exact List.getElem?_eq_none (by decide)
  refine ⟨hnone, fun h => ?_⟩
  have htakes : TakesToken [0x61] [COMMA] (Int32.ofInt (-2147483647)) := by
    rw [TakesToken, hnone, h]
  refine not_takesToken_of_overflow [0x61] [COMMA] ?_ htakes
  rw [hnum]
  decide

/-- What the clients take of their path is the last run between slashes. -/
theorem splitStr_slash {argv1 : List Byte} (h : argv1.length < 2 ^ 31) :
    Client.splitStr argv1 [SLASH] 0 = .ok (FileTransfer.splitStr argv1) := by
  have hzero : (0 : Int32).toInt = 0 := rfl
  have hsep : (fun c : Byte => [SLASH].contains c) = fun c => decide (c = SLASH) := by
    funext c
    rw [Bool.eq_iff_iff, List.contains_iff_mem, List.mem_singleton, decide_eq_true_iff]
  have hnot : (fun c : Byte => !decide (c = SLASH)) = fun c => decide (c ≠ SLASH) := by
    funext c
    exact decide_not.symm
  rw [splitStr_of_nonpos argv1 [SLASH] (by omega) (by omega), reverseStr_of_lt h, hzero, tokens,
    hsep, FileTransfer.splitStr]
  refine congrArg Except.ok ?_
  cases hfront : argv1.reverse.dropWhile (fun c => decide (c = SLASH)) with
  | nil =>
    rw [runs_of_dropWhile_nil hfront]
    rfl
  | cons c str =>
    have hc : c ≠ SLASH := by simpa using eq_false_of_dropWhile_cons hfront
    have hmem := List.mem_cons_self (a := (c :: str).takeWhile fun c => !decide (c = SLASH))
      (l := runs (fun c => decide (c = SLASH))
          ((c :: str).dropWhile fun c => !decide (c = SLASH)).tail)
    rw [← runs_of_dropWhile_cons hfront, hnot] at hmem
    have hlen := length_le_of_mem_runs hmem
    rw [List.length_reverse] at hlen
    rw [runs_of_dropWhile_cons hfront, hnot, neg_zero, Int.toNat_zero, List.getElem?_cons_zero,
      Option.map_some, reverseStr_of_lt (by omega), List.takeWhile_cons_of_pos (by simpa using hc)]

end LearnGit.Proofs.FileTransfer
