import Mathlib

/-!
# `LearnGit.Lib.Bytes`: numbers, strings and buffers as bytes

Integers of a C structure in little-endian order and of a network in big-endian order, strings
that end at their first NUL, and what a `read` leaves in a buffer that is longer than what was read. `byte_forall` is the rule for a fact
that is checked on all bytes, and `byte_xor_induct` for one that is linear.
-/

set_option autoImplicit false

namespace LearnGit.Lib

/-- What holds of the 256 bytes holds of a byte. -/
theorem byte_forall {P : UInt8 → Prop} (h : ∀ i : Fin 256, P (UInt8.ofNat i.val)) (b : UInt8) :
    P b := by
  have hb := h ⟨b.toNat, b.toNat_lt⟩
  rwa [UInt8.ofNat_toNat] at hb

/-- What `^^^` keeps holds of a byte if it holds of the bytes with a half that is 0. -/
theorem byte_xor_induct {P : UInt8 → Prop} (hxor : ∀ x y, P x → P y → P (x ^^^ y))
    (hhigh : ∀ i : Fin 16, P (UInt8.ofNat (16 * i.val)))
    (hlow : ∀ i : Fin 16, P (UInt8.ofNat i.val)) (b : UInt8) : P b := by
  have hsplit : ∀ b : UInt8,
      b = UInt8.ofNat (16 * (b.toNat / 16)) ^^^ UInt8.ofNat (b.toNat % 16) :=
    byte_forall (by decide +kernel)
  have hlt := b.toNat_lt
  rw [hsplit b]
  exact hxor _ _ (hhigh ⟨b.toNat / 16, by omega⟩) (hlow ⟨b.toNat % 16, by omega⟩)

/-! ### Masks -/

/-- A mask takes the bits of both. -/
theorem and_xor_distrib (x y mask : UInt8) : (x ^^^ y) &&& mask = (x &&& mask) ^^^ (y &&& mask) := by
  rw [← UInt8.toNat_inj, UInt8.toNat_and, UInt8.toNat_xor, UInt8.toNat_xor, UInt8.toNat_and,
    UInt8.toNat_and]
  exact Nat.and_xor_distrib_right

/-- Flipped bits that a mask does not see are not among its bits. -/
theorem and_eq_zero_of_xor {x y mask : UInt8} (h : (x ^^^ y) &&& mask = x &&& mask) :
    y &&& mask = 0 := by
  rw [and_xor_distrib] at h
  have hzero : (x &&& mask) ^^^ (y &&& mask) = (x &&& mask) ^^^ 0 := by
    rw [h, UInt8.xor_zero]
  exact (UInt8.xor_right_inj _).mp hzero

/-- A number that holds all values of a mask. -/
theorem and_eq_of_ofNat_eq {k : Nat} [NeZero k] {x y mask : UInt8} (hmask : mask.toNat < k)
    (h : Fin.ofNat k (x &&& mask).toNat = Fin.ofNat k (y &&& mask).toNat) :
    x &&& mask = y &&& mask := by
  have hx : (x &&& mask).toNat < k := by
    rw [UInt8.toNat_and]
    exact Nat.lt_of_le_of_lt Nat.and_le_right hmask
  have hy : (y &&& mask).toNat < k := by
    rw [UInt8.toNat_and]
    exact Nat.lt_of_le_of_lt Nat.and_le_right hmask
  have hval := congrArg Fin.val h
  rw [Fin.val_ofNat, Fin.val_ofNat, Nat.mod_eq_of_lt hx, Nat.mod_eq_of_lt hy] at hval
  exact UInt8.toNat_inj.mp hval
/-! ### Integers -/

/-- A number as an `int`. -/
def toInt32 (n : Nat) : Int := (BitVec.ofNat 32 n).toInt

/-- A number below `2 ^ 31` is not changed by an `int`. -/
theorem toInt32_of_lt {n : Nat} (h : n < 2 ^ 31) : toInt32 n = n := by
  rw [toInt32, BitVec.toInt_ofNat', Int.bmod_eq_of_le (by omega) (by omega)]

/-- The number that these bytes are, the lowest first. -/
def leNat : List UInt8 → Nat
  | [] => 0
  | b :: bs => b.toNat + 256 * leNat bs

/-- The lowest `k` bytes of a number. -/
def leBytes : Nat → Nat → List UInt8
  | 0, _ => []
  | k + 1, n => UInt8.ofNat n :: leBytes k (n / 256)

/-- `leBytes k` are `k` bytes. -/
@[simp] theorem leBytes_length (k : Nat) : ∀ n, (leBytes k n).length = k := by
  induction k with
  | zero =>
    intro n
    rfl
  | succ k ih =>
    intro n
    rw [leBytes, List.length_cons, ih]

/-- A number that fits the bytes is read back. -/
theorem leNat_leBytes (k : Nat) : ∀ n, n < 256 ^ k → leNat (leBytes k n) = n := by
  induction k with
  | zero =>
    intro n hn
    rw [leBytes, leNat]
    omega
  | succ k ih =>
    intro n hn
    have hdiv : n / 256 < 256 ^ k := by
      rw [Nat.pow_succ] at hn
      omega
    rw [leBytes, leNat, ih _ hdiv, UInt8.toNat_ofNat']
    omega

/-- The first bytes, and those of what is left of the number. -/
theorem leBytes_add (j k n : Nat) : leBytes (j + k) n = leBytes j n ++ leBytes k (n / 256 ^ j) := by
  induction j generalizing n with
  | zero => simp [leBytes]
  | succ j ih =>
    rw [Nat.succ_add, leBytes, leBytes, ih, Nat.div_div_eq_div_mul, Nat.pow_succ,
      Nat.mul_comm 256, List.cons_append]

/-- The bytes do not depend on what is above them. -/
theorem leBytes_mod (k n : Nat) : leBytes k (n % 256 ^ k) = leBytes k n := by
  induction k generalizing n with
  | zero => rfl
  | succ k ih =>
    have hlow : UInt8.ofNat (n % 256 ^ (k + 1)) = UInt8.ofNat n := by
      rw [← UInt8.toNat_inj, UInt8.toNat_ofNat', UInt8.toNat_ofNat']
      exact Nat.mod_mod_of_dvd n (by rw [Nat.pow_succ]; exact Nat.dvd_mul_left _ _)
    rw [leBytes, leBytes, hlow, Nat.pow_succ', Nat.mod_mul_right_div_self, ih]

/-- Zeros are the number 0. -/
theorem leNat_replicate_zero (k : Nat) : leNat (List.replicate k 0) = 0 := by
  induction k with
  | zero => rfl
  | succ k ih =>
    rw [List.replicate_succ, leNat, ih]
    rfl

/-- The bytes of 0 are zeros. -/
theorem leBytes_zero (k : Nat) : leBytes k 0 = List.replicate k 0 := by
  induction k with
  | zero => rfl
  | succ k ih =>
    rw [leBytes, Nat.zero_div, ih]
    rfl

/-- A number of `k` bytes is zero when they are. -/
theorem leNat_take_eq_zero {l : List UInt8} {k : Nat} (h : ∀ i < k, l.getD i 0 = 0) :
    leNat (l.take k) = 0 := by
  induction k generalizing l with
  | zero => rfl
  | succ k ih =>
    cases l with
    | nil => rfl
    | cons b l =>
      have hb : b = 0 := h 0 (by omega)
      rw [List.take_succ_cons, leNat, ih fun i hi => h (i + 1) (by omega), hb]
      rfl

/-- All bytes of the number 0 are zeros. -/
theorem getD_eq_zero_of_leNat {l : List UInt8} {k : Nat} (h : leNat (l.take k) = 0) :
    ∀ i < k, l.getD i 0 = 0 := by
  induction k generalizing l with
  | zero =>
    intro i hi
    exact absurd hi (Nat.not_lt_zero _)
  | succ k ih =>
    intro i hi
    cases l with
    | nil => rfl
    | cons b l =>
      rw [List.take_succ_cons, leNat] at h
      cases i with
      | zero => exact UInt8.toNat_inj.mp (by rw [List.getD_cons_zero, UInt8.toNat_zero]; omega)
      | succ i => exact ih (by omega) i (by omega)

/-- The bytes of a number that is 1. -/
theorem getD_of_leNat_eq_one {l : List UInt8} {k : Nat} (h : leNat (l.take (k + 1)) = 1) :
    l.getD 0 0 = 1 ∧ ∀ i, 1 ≤ i → i < k + 1 → l.getD i 0 = 0 := by
  cases l with
  | nil => exact nomatch h
  | cons b l =>
    rw [List.take_succ_cons, leNat] at h
    have hlt := b.toNat_lt
    have hb : b.toNat = 1 := by omega
    refine ⟨UInt8.toNat_inj.mp hb, ?_⟩
    intro i hi hk
    obtain ⟨i, rfl⟩ : ∃ i', i = i' + 1 := ⟨i - 1, by omega⟩
    have hrest : leNat (l.take k) = 0 := by omega
    exact getD_eq_zero_of_leNat hrest i (by omega)

/-! ### Strings -/

/-- The string in a byte array: the bytes before its first NUL. -/
def cStr (bytes : List UInt8) : List UInt8 := bytes.takeWhile (· ≠ 0)

/-- A string ends at the NUL. -/
theorem cStr_append_zero {s : List UInt8} (h : (0 : UInt8) ∉ s) (rest : List UInt8) :
    cStr (s ++ 0 :: rest) = s := by
  rw [cStr, List.takeWhile_append_of_pos]
  · simp
  · intro b hb
    exact decide_eq_true fun he => h (he ▸ hb)

/-- A buffer that begins with a NUL holds the empty string. -/
theorem cStr_of_getD_zero {l : List UInt8} (h : l.getD 0 0 = 0) : cStr l = [] := by
  cases l with
  | nil => rfl
  | cons b l =>
    have hb : b = 0 := h
    rw [hb]
    rfl

/-- A string of one byte. -/
theorem cStr_of_getD_one {l : List UInt8} (h₀ : l.getD 0 0 ≠ 0) (h₁ : l.getD 1 0 = 0) :
    cStr l = [l.getD 0 0] := by
  cases l with
  | nil => exact absurd rfl h₀
  | cons b l =>
    have hb : b ≠ 0 := h₀
    have hrest : cStr l = [] := cStr_of_getD_zero h₁
    rw [cStr, List.takeWhile_cons_of_pos (by simpa using hb), List.getD_cons_zero]
    exact congrArg (b :: ·) hrest

/-! ### Big-endian numbers -/

/-- The number that these bytes are, the highest first. -/
def beNat (l : List UInt8) : Nat := l.foldl (fun n b => n * 256 + b.toNat) 0

/-- The lowest `k` bytes of a number, the highest of them first. -/
def beBytes (k n : Nat) : List UInt8 := (leBytes k n).reverse

/-- No bytes are the number 0. -/
@[simp] theorem beNat_nil : beNat [] = 0 := rfl

/-- One byte more, the lowest one. -/
@[simp] theorem beNat_concat (l : List UInt8) (b : UInt8) :
    beNat (l ++ [b]) = beNat l * 256 + b.toNat := by
  simp [beNat]

/-- `beBytes k` are `k` bytes. -/
@[simp] theorem beBytes_length (k n : Nat) : (beBytes k n).length = k := by
  rw [beBytes, List.length_reverse, leBytes_length]

/-- The upper and the lower bytes of a number. -/
theorem beBytes_add (j k n : Nat) : beBytes (j + k) n = beBytes k (n / 256 ^ j) ++ beBytes j n := by
  rw [beBytes, leBytes_add, List.reverse_append]
  rfl

/-- The bytes do not depend on what is above them. -/
theorem beBytes_mod (k n : Nat) : beBytes k (n % 256 ^ k) = beBytes k n := by
  rw [beBytes, leBytes_mod]
  rfl

/-! ### Buffers -/

/-- A buffer after a `read` of these bytes into it. -/
def readInto (buf bytes : List UInt8) : List UInt8 := bytes ++ buf.drop bytes.length

/-- An array of `n` bytes that begins with these and is zero behind them. -/
def padTo (n : Nat) (bytes : List UInt8) : List UInt8 :=
  bytes ++ List.replicate (n - bytes.length) 0

/-- A `read` that fits leaves the size of the buffer. -/
theorem readInto_length {buf bytes : List UInt8} (h : bytes.length ≤ buf.length) :
    (readInto buf bytes).length = buf.length := by
  rw [readInto, List.length_append, List.length_drop]
  omega

/-- The bytes that were read, and the old ones behind them. -/
theorem getD_readInto (buf bytes : List UInt8) (i : Nat) :
    (readInto buf bytes).getD i 0 = if i < bytes.length then bytes.getD i 0 else buf.getD i 0 := by
  rw [readInto]
  split
  · rename_i h
    exact List.getD_append _ _ _ _ h
  · rename_i h
    rw [List.getD_append_right _ _ _ _ (by omega), List.getD_eq_getElem?_getD,
      List.getD_eq_getElem?_getD, List.getElem?_drop]
    congr 2
    omega

/-- A read of the whole buffer replaces it. -/
theorem readInto_of_length {buf bytes : List UInt8} (h : buf.length ≤ bytes.length) :
    readInto buf bytes = bytes := by
  rw [readInto, List.drop_eq_nil_of_le h, List.append_nil]

/-- A buffer after a `memcpy` of these bytes to an offset of it. -/
def copyInto (buf : List UInt8) (offset : Nat) (bytes : List UInt8) : List UInt8 :=
  buf.take offset ++ bytes ++ buf.drop (offset + bytes.length)

/-- A copy that fits leaves the size of the buffer. -/
theorem copyInto_length {buf bytes : List UInt8} {offset : Nat}
    (h : offset + bytes.length ≤ buf.length) : (copyInto buf offset bytes).length = buf.length := by
  simp only [copyInto, List.length_append, List.length_take, List.length_drop]
  omega

/-- What stands in front of the end of the copied bytes. -/
theorem take_copyInto {buf bytes : List UInt8} {offset : Nat}
    (h : offset + bytes.length ≤ buf.length) :
    (copyInto buf offset bytes).take (offset + bytes.length) = buf.take offset ++ bytes := by
  rw [copyInto, List.take_left' (by rw [List.length_append, List.length_take]; omega)]

/-- Padding fills up to the size. -/
theorem padTo_length {n : Nat} {bytes : List UInt8} (h : bytes.length ≤ n) :
    (padTo n bytes).length = n := by
  rw [padTo, List.length_append, List.length_replicate]
  omega

end LearnGit.Lib
