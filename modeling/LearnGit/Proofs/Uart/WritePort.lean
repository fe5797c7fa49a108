import LearnGit.Lib.Slice
import LearnGit.Uart.Tty.TtyProto

/-!
# `LearnGit.Proofs.Uart.WritePort`: what `write_port` reports

`writePort_truthful_iff`: `write_port` reports the truth if and only if one of its first two
attempts writes everything. The counter is 0 behind a successful third attempt, which is reported as
a failure, and -1 behind three failures, which is reported as a success.

The loop ends behind the first complete attempt (`writePort_complete`), or behind the last permitted
one (`writePort_short`).
-/

set_option autoImplicit false

namespace LearnGit.Proofs.Uart

open LearnGit.Lib
open LearnGit.Uart.Tty

/-! ### Statement -/

/-- `write_port` returns 0 if and only if one of its attempts wrote all `len` bytes, returns -1
otherwise, and makes no further attempt after a complete one. -/
def Truthful (len : Int) (r : WritePort) : Prop :=
  (r.ret = 0 ↔ ∃ ret ∈ r.attempts, len ≤ ret) ∧
    (r.ret ≠ 0 → r.ret = -1) ∧
    ∀ ret ∈ r.attempts.dropLast, ¬ len ≤ ret

/-! ### The loop -/

section Loop

variable {write : Nat → Int} {len : Int}

/-- A write that is too short is tried again. -/
theorem writeLoop_short {times : Nat} {attempts : List Int} (h : write attempts.length < len) :
    writeLoop write len (times + 1) attempts
      = writeLoop write len times (attempts ++ [write attempts.length]) :=
  if_pos (Or.inr h)

/-- A write of all bytes ends the loop. -/
theorem writeLoop_complete (hlen : 0 < len) {times : Nat} {attempts : List Int}
    (h : len ≤ write attempts.length) :
    writeLoop write len (times + 1) attempts
      = ⟨times, attempts ++ [write attempts.length]⟩ :=
  if_neg (by omega)

/-- The rounds of attempts that are not complete. -/
theorem writeLoop_skip (times : Nat) {j : Nat} (h : ∀ i < j, write i < len) :
    writeLoop write len (times + j) [] = writeLoop write len times (slice write 0 j) := by
  induction j generalizing times with
  | zero => rfl
  | succ j ih =>
    have hrounds : times + (j + 1) = times + 1 + j := by omega
    have hshort : write (slice write 0 j).length < len := by
      rw [slice_length]
      exact h j (Nat.lt_succ_self j)
    rw [hrounds, ih (times + 1) fun i hi => h i (Nat.lt_succ_of_lt hi), writeLoop_short hshort,
      slice_length, slice_concat, Nat.zero_add]

/-- The call, where the attempt number `j` is the first complete one. -/
theorem writePort_complete (hlen : 0 < len) {j : Nat} (hj : j < 3) (h : ∀ i < j, write i < len)
    (hcomplete : len ≤ write j) :
    writePort write len = ⟨if j = 2 then -1 else 0, slice write 0 (j + 1)⟩ := by
  have hcomplete' : len ≤ write (slice write 0 j).length := by
    rw [slice_length]
    exact hcomplete
  have hloop : writeLoop write len 3 [] = ⟨(2 - j : Nat), slice write 0 (j + 1)⟩ := by
    have hrounds : 3 = 2 - j + 1 + j := by omega
    rw [hrounds, writeLoop_skip (2 - j + 1) h, writeLoop_complete hlen hcomplete', slice_length,
      slice_concat, Nat.zero_add]
  rw [writePort, hloop]
  by_cases hlast : j = 2
  · rw [if_pos hlast]
    exact if_pos (by simp only; omega)
  · rw [if_neg hlast]
    exact if_neg (by simp only; omega)

/-- The call, where no permitted attempt is complete. -/
theorem writePort_short (h : ∀ i < 3, write i < len) :
    writePort write len = ⟨0, slice write 0 3⟩ := by
  have hloop : writeLoop write len 3 [] = ⟨-1, slice write 0 3⟩ := writeLoop_skip 0 h
  rw [writePort, hloop]
  exact if_neg (show ¬ (0 : Int) = -1 by decide)

/-- There is a first complete attempt, or there is none. -/
theorem first_complete_or_short (write : Nat → Int) (len : Int) (k : Nat) :
    (∃ j < k, (∀ i < j, write i < len) ∧ len ≤ write j) ∨ ∀ i < k, write i < len := by
  induction k with
  | zero =>
    right
    intro i hi
    omega
  | succ k ih =>
    rcases ih with ⟨j, hj, hfirst⟩ | hshort
    · exact Or.inl ⟨j, Nat.lt_succ_of_lt hj, hfirst⟩
    · by_cases hcomplete : len ≤ write k
      · exact Or.inl ⟨k, Nat.lt_succ_self k, hshort, hcomplete⟩
      · right
        intro i hi
        rcases Nat.lt_succ_iff_lt_or_eq.mp hi with hi | rfl
        · exact hshort i hi
        · exact Int.not_le.mp hcomplete

/-- Every attempt is one of the first `k` calls of `write`. -/
theorem mem_slice {k : Nat} {ret : Int} :
    ret ∈ slice write 0 k ↔ ∃ i < k, write i = ret := by
  rw [slice, List.mem_map]
  refine exists_congr fun i => and_congr_left fun _ => ?_
  rw [List.mem_range'_1]
  omega

/-- The attempts before the last one. -/
theorem dropLast_slice (k : Nat) : (slice write 0 (k + 1)).dropLast = slice write 0 k := by
  rw [slice_concat, List.dropLast_concat]

end Loop

/-! ### The theorem -/

/-- `write_port` reports the truth if and only if its first or its second attempt is complete. -/
theorem writePort_truthful_iff (write : Nat → Int) (len : Int) (hlen : 0 < len) :
    Truthful len (writePort write len) ↔ len ≤ write 0 ∨ len ≤ write 1 := by
  rcases first_complete_or_short write len 3 with ⟨j, hj, hbefore, hcomplete⟩ | hshort
  · have hmem : ∃ ret ∈ slice write 0 (j + 1), len ≤ ret :=
      ⟨write j, mem_slice.mpr ⟨j, Nat.lt_succ_self j, rfl⟩, hcomplete⟩
    rw [writePort_complete hlen hj hbefore hcomplete]
    by_cases hlast : j = 2
    · -- The third attempt is complete, but the counter is 0 then, and the call returns -1.
      rw [if_pos hlast]
      have hfirst := hbefore 0 (by omega)
      have hsecond := hbefore 1 (by omega)
      constructor
      · rintro ⟨hzero, -⟩
        exact absurd (hzero.mpr hmem) (show ¬ (-1 : Int) = 0 by decide)
      · intro h
        omega
    · rw [if_neg hlast]
      constructor
      · intro _
        obtain rfl | rfl : j = 0 ∨ j = 1 := by omega
        · exact Or.inl hcomplete
        · exact Or.inr hcomplete
      · intro _
        refine ⟨⟨fun _ => hmem, fun _ => rfl⟩, fun h => absurd rfl h, ?_⟩
        intro ret hret
        rw [dropLast_slice] at hret
        obtain ⟨i, hi, rfl⟩ := mem_slice.mp hret
        exact Int.not_le.mpr (hbefore i hi)
  · -- No attempt is complete. The counter is -1, and the test is whether it is 0.
    rw [writePort_short hshort]
    have hfirst := hshort 0 (by omega)
    have hsecond := hshort 1 (by omega)
    constructor
    · rintro ⟨hzero, -⟩
      obtain ⟨ret, hret, hcomplete⟩ := hzero.mp rfl
      obtain ⟨i, hi, rfl⟩ := mem_slice.mp hret
      exact absurd (hshort i hi) (Int.not_lt.mpr hcomplete)
    · intro h
      omega

/-- A partial write and then a complete one. -/
theorem writePort_truthful_iff_second :
    (0 : Int) < 10 ∧ Truthful 10 (writePort (fun i => if i = 0 then 4 else 10) 10) :=
  ⟨by decide, (writePort_truthful_iff (fun i => if i = 0 then 4 else 10) 10 (by decide)).mpr
    (Or.inr (by decide))⟩

/-- Three failures are reported as a success. -/
theorem writePort_reports_failure_as_success : ¬ Truthful 10 (writePort (fun _ => -1) 10) := by
  rintro ⟨hzero, -⟩
  obtain ⟨ret, hret, hcomplete⟩ := hzero.mp (by decide)
  have hattempts : (writePort (fun _ => -1) 10).attempts = [-1, -1, -1] := by decide
  rw [hattempts] at hret
  have hfailed : ∀ ret ∈ ([-1, -1, -1] : List Int), ret < 10 := by decide
  exact absurd (hfailed ret hret) (Int.not_lt.mpr hcomplete)

end LearnGit.Proofs.Uart
