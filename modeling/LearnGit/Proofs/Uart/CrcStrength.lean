import LearnGit.Lib.Bytes
import LearnGit.Proofs.Uart.BitFlip

/-!
# `LearnGit.Proofs.Uart.CrcStrength`: the errors that the CRC finds

`calcrcBytes_detects`: an error that flips an odd number of bits, or one within eight consecutive
bits, changes `calcrc_bytes`. The CRC is linear (`calcrcBytes_xor`), so it changes by the CRC of the
error pattern, and that is to be other than 0:

* a round keeps the parity of the bits (`parity_calcrc1byte`), since the polynomial has an even
  number of terms, so that a pattern with an odd number of bits has an odd CRC;
* a pattern within eight bits is in one byte or in the upper part of a byte and the lower part of
  the next. The two parts do not cancel (`burst_table`).
-/

set_option autoImplicit false

namespace LearnGit.Proofs.Uart

open LearnGit.Lib
open LearnGit.Uart.Link

/-! ### Statement -/

/-- The bits of a byte, the least significant one first. -/
def byteBits (b : Byte) : List Bool := (List.range 8).map b.toNat.testBit

/-- The bits of a pattern in the order in which they are sent. -/
def bits (e : List Byte) : List Bool := e.flatMap byteBits

/-- The message with the bits of the pattern flipped. -/
def corrupt (msg e : List Byte) : List Byte := List.zipWith (· ^^^ ·) msg e

/-- All bits of the pattern are among eight consecutive ones. -/
def InEightBits (e : List Byte) : Prop :=
  ∃ k : Nat, ∀ i : Nat, (bits e)[i]? = some true → k ≤ i ∧ i < k + 8

/-! ### The CRC is linear -/

/-- What a round adds for the bit that is shifted out. -/
def feedback (x : Byte) : Byte := if x &&& 0x01 ≠ 0 then 0x8C else 0

/-- The feedback is linear. -/
theorem feedback_xor (x y : Byte) : feedback (x ^^^ y) = feedback x ^^^ feedback y := by
  have hlow : ∀ b : Byte, b &&& 0x01 = 0 ∨ b &&& 0x01 = 1 := by
    intro b
    rw [← UInt8.toNat_inj, ← UInt8.toNat_inj, UInt8.toNat_and]
    show b.toNat &&& 1 = 0 ∨ b.toNat &&& 1 = 1
    rw [Nat.and_one_is_mod]
    omega
  rw [feedback, feedback, feedback, and_xor_distrib]
  rcases hlow x with hx | hx
  · rcases hlow y with hy | hy
    · rw [hx, hy]
      rfl
    · rw [hx, hy]
      rfl
  · rcases hlow y with hy | hy
    · rw [hx, hy]
      rfl
    · rw [hx, hy]
      rfl

/-- A round of `calcrc_1byte` as a shift and what it adds. -/
theorem calcrc1byteLoop_succ (i : Nat) (crc abyte : Byte) : calcrc1byteLoop (i + 1) crc abyte
    = calcrc1byteLoop i ((crc >>> 1) ^^^ feedback (crc ^^^ abyte)) (abyte >>> 1) := by
  have hadd : ∀ crc : Byte, ((crc ^^^ 0x18) >>> 1) ||| (0x80 : Byte) = (crc >>> 1) ^^^ 0x8C :=
    byte_forall (by decide +kernel)
  rw [calcrc1byteLoop, feedback]
  split
  · rw [hadd]
  · rw [UInt8.xor_zero]

/-- The two middle ones of four may change places. -/
theorem xor_xor_xor_comm (w x y z : Byte) : (w ^^^ x) ^^^ (y ^^^ z) = (w ^^^ y) ^^^ (x ^^^ z) := by
  rw [UInt8.xor_assoc, UInt8.xor_assoc, ← UInt8.xor_assoc x, UInt8.xor_comm x y, UInt8.xor_assoc]

/-- The loop over the bits is linear. -/
theorem calcrc1byteLoop_xor (i : Nat) : ∀ c d a b : Byte,
    calcrc1byteLoop i (c ^^^ d) (a ^^^ b) = calcrc1byteLoop i c a ^^^ calcrc1byteLoop i d b := by
  induction i with
  | zero =>
    intro c d a b
    rfl
  | succ i ih =>
    intro c d a b
    rw [calcrc1byteLoop_succ, calcrc1byteLoop_succ, calcrc1byteLoop_succ, xor_xor_xor_comm c d a b,
      feedback_xor, UInt8.shiftRight_xor, UInt8.shiftRight_xor, xor_xor_xor_comm, ih]

/-- The code of a byte is linear. -/
theorem calcrc1byte_xor (a b : Byte) :
    calcrc1byte (a ^^^ b) = calcrc1byte a ^^^ calcrc1byte b :=
  calcrc1byteLoop_xor 8 0 0 a b

/-- The CRC of a message with flipped bits. -/
theorem calcrcBytes_corrupt (msg : List Byte) : ∀ (e : List Byte) (c d : Byte),
    e.length = msg.length →
    (corrupt msg e).foldl (fun crc b => calcrc1byte (crc ^^^ b)) (c ^^^ d)
      = msg.foldl (fun crc b => calcrc1byte (crc ^^^ b)) c
        ^^^ e.foldl (fun crc b => calcrc1byte (crc ^^^ b)) d := by
  induction msg with
  | nil =>
    intro e c d hlen
    rw [List.length_eq_zero_iff.mp hlen]
    rfl
  | cons m msg ih =>
    intro e c d hlen
    cases e with
    | nil => exact nomatch hlen
    | cons x e =>
      have hbyte : calcrc1byte ((c ^^^ d) ^^^ (m ^^^ x))
          = calcrc1byte (c ^^^ m) ^^^ calcrc1byte (d ^^^ x) := by
        rw [xor_xor_xor_comm, calcrc1byte_xor]
      show (corrupt msg e).foldl _ (calcrc1byte ((c ^^^ d) ^^^ (m ^^^ x))) = _
      rw [hbyte]
      exact ih e _ _ (Nat.succ.inj hlen)

/-- The code of a corrupted message differs by the code of the corruption. -/
theorem calcrcBytes_xor {msg e : List Byte} (hlen : e.length = msg.length) :
    calcrcBytes (corrupt msg e) = calcrcBytes msg ^^^ calcrcBytes e :=
  calcrcBytes_corrupt msg e 0 0 hlen

/-! ### An odd number of bits -/

/-- The number of bits that are 1. -/
def weight (e : List Byte) : Nat := (bits e).count true

/-- The parity of a pattern of differences is the sum of the parities. -/
theorem count_map_xor (f g : Nat → Bool) (l : List Nat) :
    (l.map fun j => f j ^^ g j).count true % 2
      = ((l.map f).count true + (l.map g).count true) % 2 := by
  induction l with
  | nil => rfl
  | cons j l ih =>
    rw [List.map_cons, List.map_cons, List.map_cons, List.count_cons, List.count_cons,
      List.count_cons]
    cases f j <;> cases g j <;> simp <;> omega

/-- The parity of the differing bits is the sum of the parities. -/
theorem parity_xor (a b : Byte) : (byteBits (a ^^^ b)).count true % 2
    = ((byteBits a).count true + (byteBits b).count true) % 2 := by
  have hbits : byteBits (a ^^^ b)
      = (List.range 8).map fun j => a.toNat.testBit j ^^ b.toNat.testBit j := by
    rw [byteBits, UInt8.toNat_xor]
    exact List.map_congr_left fun j _ => Nat.testBit_xor ..
  rw [hbits]
  exact count_map_xor _ _ _

/-- The code of a byte has its parity. -/
theorem parity_calcrc1byte (b : Byte) :
    (byteBits (calcrc1byte b)).count true % 2 = (byteBits b).count true % 2 := by
  refine byte_xor_induct (P := fun b =>
    (byteBits (calcrc1byte b)).count true % 2 = (byteBits b).count true % 2) ?_ ?_ ?_ b
  · intro x y hx hy
    rw [calcrc1byte_xor, parity_xor, parity_xor, Nat.add_mod, hx, hy, ← Nat.add_mod]
  · decide
  · decide

/-- The code of a text has the parity of its start and its bits. -/
theorem parity_calcrcBytes (e : List Byte) : ∀ c : Byte,
    (byteBits (e.foldl (fun crc b => calcrc1byte (crc ^^^ b)) c)).count true % 2
      = ((byteBits c).count true + weight e) % 2 := by
  induction e with
  | nil =>
    intro c
    rfl
  | cons b e ih =>
    intro c
    have hweight : weight (b :: e) = (byteBits b).count true + weight e := by
      rw [weight, bits, List.flatMap_cons, List.count_append]
      rfl
    rw [List.foldl_cons, ih, Nat.add_mod, parity_calcrc1byte, parity_xor, hweight]
    omega

/-- An odd number of wrong bits has a code that is not zero. -/
theorem calcrcBytes_ne_zero_of_odd {e : List Byte} (h : Odd (weight e)) : calcrcBytes e ≠ 0 := by
  intro hzero
  have hparity := parity_calcrcBytes e 0
  rw [show e.foldl (fun crc b => calcrc1byte (crc ^^^ b)) 0 = 0 from hzero] at hparity
  have hnone : (byteBits 0).count true = 0 := by decide
  rw [hnone] at hparity
  have hodd := Nat.odd_iff.mp h
  omega

/-! ### Eight consecutive bits -/

/-- A byte has eight bits. -/
theorem byteBits_length (b : Byte) : (byteBits b).length = 8 := by
  rw [byteBits, List.length_map, List.length_range]

/-- The bits of a byte are those of its number. -/
theorem getElem?_byteBits {b : Byte} {t : Nat} (ht : t < 8) :
    (byteBits b)[t]? = some (b.toNat.testBit t) := by
  rw [byteBits, List.getElem?_map, List.getElem?_range ht]
  rfl

/-- The bits of the first byte, and behind them those of the others. -/
theorem getElem?_bits_cons (b : Byte) (e : List Byte) :
    (∀ t < 8, (bits (b :: e))[t]? = some (b.toNat.testBit t)) ∧
      ∀ i, (bits (b :: e))[i + 8]? = (bits e)[i]? := by
  rw [bits, List.flatMap_cons]
  constructor
  · intro t ht
    rw [List.getElem?_append_left (by rw [byteBits_length]; exact ht)]
    exact getElem?_byteBits ht
  · intro i
    rw [List.getElem?_append_right (by rw [byteBits_length]; omega), byteBits_length,
      Nat.add_sub_cancel]
    rfl

/-- The CRC of a byte has a bit that is not below all bits of the byte. -/
theorem burst_table : ∀ b : Byte, b ≠ 0 → ∃ t : Fin 8, b.toNat.testBit t ∧
    ∃ t' : Fin 8, t ≤ t' ∧ (calcrc1byte b).toNat.testBit t' :=
  byte_forall (by decide +kernel)

/-- A byte other than 0 has a bit. -/
theorem exists_testBit {b : Byte} (hb : b ≠ 0) : ∃ t : Fin 8, b.toNat.testBit t := by
  obtain ⟨t, ht, -⟩ := burst_table b hb
  exact ⟨t, ht⟩

/-- Zeros behind it leave a code that is not zero so. -/
theorem calcrcFold_ne_zero {q : List Byte} (hq : ∀ b ∈ q, b = 0) {c : Byte} (hc : c ≠ 0) :
    q.foldl (fun crc b => calcrc1byte (crc ^^^ b)) c ≠ 0 := by
  have hzero : q.foldl (fun crc b => calcrc1byte (crc ^^^ b)) 0 = 0 := by
    induction q with
    | nil => rfl
    | cons b q ih =>
      rw [List.foldl_cons, hq b List.mem_cons_self]
      exact ih fun x hx => hq x (List.mem_cons_of_mem b hx)
  -- Started at 0, the rounds give 0, and different accumulators stay different.
  intro h
  rw [← hzero] at h
  exact hc (calcrcFold_injective q h)

/-- Bytes without a bit. -/
theorem eq_zero_of_no_bits {e : List Byte} (h : ∀ i : Nat, (bits e)[i]? ≠ some true) :
    ∀ b ∈ e, b = 0 := by
  induction e with
  | nil =>
    intro b hb
    exact absurd hb List.not_mem_nil
  | cons x e ih =>
    obtain ⟨hhead, htail⟩ := getElem?_bits_cons x e
    intro b hb
    rcases List.mem_cons.mp hb with rfl | hb
    · by_contra hne
      obtain ⟨t, ht⟩ := exists_testBit hne
      exact h t (by rw [hhead t t.isLt, ht])
    · refine ih ?_ b hb
      intro i
      rw [← htail i]
      exact h (i + 8)

/-- The first byte of the pattern has no bit below `k`, and the rest has bits below `k` only. -/
theorem calcrcFold_ne_zero_of_first {x : Byte} {e : List Byte} {k : Nat} (hx : x ≠ 0)
    (hlow : ∀ t : Fin 8, x.toNat.testBit t → k ≤ t)
    (hrest : ∀ i : Nat, (bits e)[i]? = some true → i < k) :
    e.foldl (fun crc b => calcrc1byte (crc ^^^ b)) (calcrc1byte x) ≠ 0 := by
  obtain ⟨t₀, ht₀, t, hle, ht⟩ := burst_table x hx
  have hkt : k ≤ t.val := Nat.le_trans (hlow t₀ ht₀) hle
  cases e with
  | nil =>
    intro hzero
    rw [show calcrc1byte x = 0 from hzero] at ht
    exact absurd ht (by rw [UInt8.toNat_zero, Nat.zero_testBit]; decide)
  | cons c e =>
    obtain ⟨hhead, htail⟩ := getElem?_bits_cons c e
    have hzeros : ∀ b ∈ e, b = 0 := by
      refine eq_zero_of_no_bits ?_
      intro i hi
      have hlt := hrest (i + 8) (by rw [htail i]; exact hi)
      omega
    -- The CRC has the bit `t`, and the next byte has bits below `k` only.
    have hne : calcrc1byte x ^^^ c ≠ 0 := by
      intro hzero
      rw [UInt8.xor_eq_zero_iff.mp hzero] at ht
      have hlt := hrest t (by rw [hhead t t.isLt, ht])
      exact absurd hkt (Nat.not_le.mpr hlt)
    rw [List.foldl_cons]
    refine calcrcFold_ne_zero hzeros ?_
    intro hzero
    exact hne (calcrc1byte_injective (hzero.trans (by decide : (0 : Byte) = calcrc1byte 0)))

/-- Wrong bits within eight places have a code that is not zero. -/
theorem calcrcBytes_ne_zero_of_burst {e : List Byte} (hne : ∃ b ∈ e, b ≠ 0)
    (h : InEightBits e) : calcrcBytes e ≠ 0 := by
  induction e with
  | nil =>
    obtain ⟨b, hb, -⟩ := hne
    exact absurd hb List.not_mem_nil
  | cons x e ih =>
    obtain ⟨k, hk⟩ := h
    obtain ⟨hhead, htail⟩ := getElem?_bits_cons x e
    by_cases hx : x = 0
    · -- The CRC is still 0 behind the byte, and the window moves by eight bits.
      have hsame : calcrcBytes (x :: e) = calcrcBytes e := by
        rw [hx]
        rfl
      rw [hsame]
      refine ih ?_ ⟨k - 8, ?_⟩
      · obtain ⟨b, hb, hbne⟩ := hne
        rcases List.mem_cons.mp hb with rfl | hb
        · exact absurd hx hbne
        · exact ⟨b, hb, hbne⟩
      · intro i hi
        have hwindow := hk (i + 8) (by rw [htail i]; exact hi)
        omega
    · -- The window begins in this byte, at its bit `k`, and ends before the bit `k` of the next one.
      have hstart : calcrcBytes (x :: e)
          = e.foldl (fun crc b => calcrc1byte (crc ^^^ b)) (calcrc1byte x) := by
        rw [calcrcBytes, List.foldl_cons, UInt8.zero_xor]
      rw [hstart]
      refine calcrcFold_ne_zero_of_first (k := k) hx ?_ ?_
      · intro t' ht'
        exact (hk t' (by rw [hhead t' t'.isLt, ht'])).1
      · intro i hi
        have hwindow := hk (i + 8) (by rw [htail i]; exact hi)
        omega

/-! ### The theorem -/

/-- A pattern other than 0 with an odd number of bits, or within eight consecutive bits, changes
the CRC of every message. -/
theorem calcrcBytes_detects (msg e : List Byte) (hlen : e.length = msg.length)
    (hne : ∃ b ∈ e, b ≠ 0) (h : Odd ((bits e).count true) ∨ InEightBits e) :
    calcrcBytes (corrupt msg e) ≠ calcrcBytes msg := by
  -- The CRC is linear, so the pattern alone decides.
  have hcrc : calcrcBytes e ≠ 0 := by
    rcases h with hodd | hburst
    · exact calcrcBytes_ne_zero_of_odd hodd
    · exact calcrcBytes_ne_zero_of_burst hne hburst
  rw [calcrcBytes_xor hlen]
  intro heq
  have hzero : calcrcBytes msg ^^^ calcrcBytes e = calcrcBytes msg ^^^ 0 := by
    rw [heq, UInt8.xor_zero]
  exact hcrc ((UInt8.xor_right_inj _).mp hzero)

/-- Eight bits from the middle of a byte on. -/
theorem calcrcBytes_detects_burst :
    calcrcBytes (corrupt [0x41, 0x42] [0xF0, 0x0F]) ≠ calcrcBytes [0x41, 0x42] := by
  refine calcrcBytes_detects [0x41, 0x42] [0xF0, 0x0F] rfl ⟨0xF0, by decide, by decide⟩
    (Or.inr ⟨4, ?_⟩)
  intro i hi
  have hlt : i < 16 := (List.getElem?_eq_some_iff.mp hi).1
  have htable : ∀ i : Fin 16, (bits [0xF0, 0x0F])[i.val]? = some true → 4 ≤ i.val ∧ i.val < 12 := by
    decide
  exact htable ⟨i, hlt⟩ hi

end LearnGit.Proofs.Uart
