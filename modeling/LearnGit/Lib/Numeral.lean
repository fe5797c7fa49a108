import Mathlib

/-!
# `LearnGit.Lib.Numeral`: numbers as text

Digits as `printf` writes them, and the rule for the loops that read them: a loop that takes a
digit `d` from `acc` to `acc * b + d` ends at the number that was written (`foldl_printNat`), or at
a fault where that is above the bound of its type (`foldlM_printNat`).
-/

set_option autoImplicit false

namespace LearnGit.Lib

/-- The digit with this value. -/
def digitByte (d : Nat) : UInt8 := UInt8.ofNat d.digitChar.toNat

/-- A number to the base `b`, the highest digit first. -/
def printNat (b n : Nat) : List UInt8 := (Nat.toDigits b n).map fun c => UInt8.ofNat c.toNat

/-- The text with zeros in front, up to `w` digits. -/
def padZeros (w : Nat) (text : List UInt8) : List UInt8 :=
  List.replicate (w - text.length) 0x30 ++ text

/-- A number has one digit, or the lowest one behind the others. -/
theorem printNat_eq {b : Nat} (hb : 1 < b) (n : Nat) :
    printNat b n = if n < b then [digitByte n] else printNat b (n / b) ++ [digitByte (n % b)] := by
  rw [printNat, Nat.toDigits_eq_if hb]
  split
  · rfl
  · rw [List.map_append]
    rfl

/-- A loop over the digits of a number computes it, in any representation `f` of numbers. -/
theorem foldl_printNat {S : Type} {b : Nat} (hb : 1 < b) {f : Nat → S} {step : S → UInt8 → S}
    (hstep : ∀ acc d, d < b → step (f acc) (digitByte d) = f (acc * b + d)) (n : Nat) :
    (printNat b n).foldl step (f 0) = f n := by
  induction n using Nat.strongRecOn with
  | ind n ih =>
    rw [printNat_eq hb]
    split
    · rename_i hlt
      rw [List.foldl_cons, List.foldl_nil, hstep 0 n hlt, Nat.zero_mul, Nat.zero_add]
    · rename_i hge
      have hdiv : n / b < n := Nat.div_lt_self (by omega) hb
      rw [List.foldl_append, ih (n / b) hdiv, List.foldl_cons, List.foldl_nil,
        hstep _ _ (Nat.mod_lt n (by omega))]
      exact congrArg f (Nat.div_add_mod' n b)

/-- The same of a loop that fails above a bound. -/
theorem foldlM_printNat {ε : Type} {b bound : Nat} (hb : 1 < b) {fault : ε}
    {step : Nat → UInt8 → Except ε Nat}
    (hstep : ∀ acc d, d < b → step acc (digitByte d)
      = if acc * b + d ≤ bound then .ok (acc * b + d) else .error fault) (n : Nat) :
    (printNat b n).foldlM step 0 = if n ≤ bound then .ok n else .error fault := by
  induction n using Nat.strongRecOn with
  | ind n ih =>
    rw [printNat_eq hb]
    split
    · rename_i hlt
      rw [List.foldlM_cons, hstep 0 n hlt, Nat.zero_mul, Nat.zero_add]
      by_cases hn : n ≤ bound
      · rw [if_pos hn]
        rfl
      · rw [if_neg hn]
        rfl
    · rename_i hge
      have hdiv : n / b < n := Nat.div_lt_self (by omega) hb
      have hlast := hstep (n / b) (n % b) (Nat.mod_lt n (by omega))
      rw [Nat.div_add_mod'] at hlast
      rw [List.foldlM_append, ih (n / b) hdiv]
      by_cases hfront : n / b ≤ bound
      · rw [if_pos hfront]
        show (step (n / b) (digitByte (n % b))).bind _ = _
        rw [hlast]
        by_cases hn : n ≤ bound
        · rw [if_pos hn]
          rfl
        · rw [if_neg hn]
          rfl
      · -- The digits in front are above the bound already.
        rw [if_neg hfront, if_neg (by omega)]
        rfl

/-- Every character of a number is a digit. -/
theorem mem_printNat {b : Nat} (hb : 1 < b) (n : Nat) :
    ∀ c ∈ printNat b n, ∃ d < b, c = digitByte d := by
  induction n using Nat.strongRecOn with
  | ind n ih =>
    intro c hc
    rw [printNat_eq hb] at hc
    split at hc
    · rename_i hlt
      exact ⟨n, hlt, List.mem_singleton.mp hc⟩
    · rename_i hge
      rcases List.mem_append.mp hc with hc | hc
      · exact ih (n / b) (Nat.div_lt_self (by omega) hb) c hc
      · exact ⟨n % b, Nat.mod_lt n (by omega), List.mem_singleton.mp hc⟩

/-- A number has no more than `k` digits exactly when it is below `b ^ k`. -/
theorem printNat_length_le {b n k : Nat} (hb : 1 < b) (hk : 0 < k) :
    (printNat b n).length ≤ k ↔ n < b ^ k := by
  rw [printNat, List.length_map]
  exact Nat.length_toDigits_le_iff hb hk

/-- The lowest digit of a padded number. -/
theorem padZeros_printNat_succ {b w n : Nat} (hb : 1 < b) (hw : 0 < w) :
    padZeros (w + 1) (printNat b n) = padZeros w (printNat b (n / b)) ++ [digitByte (n % b)] := by
  by_cases hlt : n < b
  · obtain ⟨w, rfl⟩ := Nat.exists_eq_succ_of_ne_zero hw.ne'
    have hzero : printNat b 0 = [0x30] := by
      rw [printNat_eq hb, if_pos (by omega)]
      rfl
    rw [printNat_eq hb, if_pos hlt, Nat.div_eq_of_lt hlt, Nat.mod_eq_of_lt hlt, hzero, padZeros,
      padZeros, List.length_singleton, List.length_singleton, Nat.add_sub_cancel,
      Nat.succ_eq_add_one, Nat.add_sub_cancel, List.replicate_succ']
  · rw [printNat_eq hb, if_neg hlt, padZeros, padZeros, List.length_append, List.length_singleton,
      Nat.add_sub_add_right, List.append_assoc]

/-- A number below `b ^ w` in `w` digits. -/
theorem padZeros_printNat {b w n : Nat} (hb : 1 < b) (hw : 0 < w) (hn : n < b ^ w) :
    padZeros w (printNat b n) = (List.range w).map fun i => digitByte (n / b ^ (w - 1 - i) % b) := by
  induction w, hw using Nat.le_induction generalizing n with
  | base =>
    rw [Nat.succ_eq_add_one, Nat.zero_add, pow_one] at hn
    rw [printNat_eq hb, if_pos hn]
    simp [padZeros, Nat.mod_eq_of_lt hn]
  | succ w hw ih =>
    have hdiv : n / b < b ^ w := Nat.div_lt_of_lt_mul (by rwa [← pow_succ'])
    rw [padZeros_printNat_succ hb hw, ih hdiv, List.range_succ, List.map_append]
    congr 1
    · refine List.map_congr_left fun i hi => ?_
      have hi' := List.mem_range.mp hi
      have hexp : w + 1 - 1 - i = w - 1 - i + 1 := by omega
      rw [hexp, pow_succ', Nat.div_div_eq_div_mul]
    · simp

/-- Every number has a digit. -/
theorem printNat_ne_nil (b n : Nat) : printNat b n ≠ [] := by
  rw [printNat, Ne, List.map_eq_nil_iff]
  exact Nat.toDigits_ne_nil

end LearnGit.Lib
