import LearnGit.GitPack.ParsePack

/-!
# `LearnGit.Proofs.GitPack.ParsePack`: headers of objects read back

`decodeLoop_encodeLoop` says what the reader makes of the bytes of a number, whatever follows
them: the number is read back when it fits an `int` in its place, and otherwise some shift is not
defined. It is by induction on the number, seven bits in each step (`shifted_lt_iff`).
`decodeHeader_encodeHeader` is the round trip of a header.
-/

set_option autoImplicit false

namespace LearnGit.Proofs.GitPack

open LearnGit.Lib
open LearnGit.GitPack

/-! ### Bytes -/

/-- The bits of a byte below its highest one are a remainder. -/
theorem byte_and_mask (b : Byte) : (b &&& 0x7F).toNat = b.toNat % 128 := by
  rw [UInt8.toNat_and]
  exact Nat.and_two_pow_sub_one_eq_mod b.toNat 7

/-- The highest bit of a byte says whether it is 128 at least. -/
theorem byte_and_high (b : Byte) : b &&& 0x80 = 0 ↔ b.toNat < 128 := by
  have hlt := b.toNat_lt
  have hbit : b.toNat.testBit 7 = decide (128 ≤ b.toNat) := by
    rw [Nat.testBit_eq_decide_div_mod_eq]
    exact decide_eq_decide.mpr (by omega)
  rw [← UInt8.toNat_inj, UInt8.toNat_and]
  show b.toNat &&& 2 ^ 7 = 0 ↔ b.toNat < 128
  rw [Nat.and_two_pow, hbit]
  by_cases h : 128 ≤ b.toNat
  · rw [decide_eq_true h]
    simpa using h
  · rw [decide_eq_false h]
    simpa using h

/-- Setting the high bit adds 128. -/
theorem byte_or_high {b : Byte} (h : b.toNat < 128) : (b ||| 0x80).toNat = b.toNat + 128 := by
  have hor := Nat.two_pow_add_eq_or_of_lt (i := 7) h 1
  rw [UInt8.toNat_or, Nat.or_comm]
  show 2 ^ 7 * 1 ||| b.toNat = b.toNat + 128
  rw [← hor]
  omega

/-- The first byte of a number, and the bytes behind it. -/
theorem encodeLoop_cases (c : Byte) (size : Nat) :
    (size = 0 ∧ encodeLoop c size = [c])
      ∨ (0 < size ∧ encodeLoop c size
        = (c ||| 0x80) :: encodeLoop (UInt8.ofNat (size % 128)) (size / 128)) := by
  rw [encodeLoop]
  rcases Nat.eq_zero_or_pos size with h | h
  · exact .inl ⟨h, dif_pos h⟩
  · refine .inr ⟨h, ?_⟩
    rw [dif_neg (by omega), Nat.shiftRight_eq_div_pow,
      show size &&& 0x7f = size % 128 from Nat.and_two_pow_sub_one_eq_mod size 7]

/-! ### The loops -/

/-- A shift is defined up to 31 places for a result that is an `int`. -/
theorem shiftInt_eq (x shift : Nat) :
    shiftInt x shift = if shift < 32 ∧ x * 2 ^ shift < 2 ^ 31 then some (x * 2 ^ shift) else none := by
  rw [shiftInt, Nat.shiftLeft_eq]

/-- A number fits an `int` in its place when its lowest seven bits do and the others do. -/
theorem shifted_lt_iff {size : Nat} (hsize : 0 < size) (shift : Nat) :
    size * 2 ^ shift < 2 ^ 31 ↔
      (shift < 32 ∧ size % 128 * 2 ^ shift < 2 ^ 31) ∧ size / 128 * 2 ^ (shift + 7) < 2 ^ 31 := by
  by_cases hshift : shift < 32
  · interval_cases shift <;> omega
  · have hpow : 2 ^ 32 ≤ 2 ^ shift := Nat.pow_le_pow_right (by decide) (by omega)
    have hle : 1 * 2 ^ shift ≤ size * 2 ^ shift := Nat.mul_le_mul_right _ hsize
    constructor
    · intro h
      omega
    · intro h
      exact absurd h.1.1 hshift

/-- The last byte of a number ends the loop. -/
theorem decodeLoop_last {oneByte : Byte} (h : oneByte.toNat < 128) (size shift : Nat)
    (packData : List Byte) : decodeLoop oneByte size shift packData = some (size, packData) := by
  have hbit := (byte_and_high oneByte).mpr h
  cases packData with
  | nil => rw [decodeLoop, if_pos hbit]
  | cons b packData => rw [decodeLoop, if_pos hbit]

/-- A byte with the high bit set is followed by seven bits of the size. -/
theorem decodeLoop_next {oneByte : Byte} (h : 128 ≤ oneByte.toNat) (size shift : Nat) (b : Byte)
    (packData : List Byte) :
    decodeLoop oneByte size shift (b :: packData)
      = (shiftInt (b.toNat % 128) shift).bind fun part =>
        decodeLoop b ((size + part) % 2 ^ 64) ((shift + 7) % 2 ^ 32) packData := by
  have hbit : ¬oneByte &&& 0x80 = 0 := by
    rw [byte_and_high]
    omega
  rw [decodeLoop, if_neg hbit, byte_and_mask]

/-- The first byte of a number has the seven bits it was given. -/
theorem encodeLoop_first {c : Byte} (hc : c.toNat < 128) (size : Nat) :
    ∃ first tail, encodeLoop c size = first :: tail ∧ first.toNat % 128 = c.toNat := by
  rcases encodeLoop_cases c size with ⟨_, hend⟩ | ⟨_, hnext⟩
  · exact ⟨c, [], hend, Nat.mod_eq_of_lt hc⟩
  · refine ⟨c ||| 0x80, _, hnext, ?_⟩
    rw [byte_or_high hc]
    omega

/-- What the reader makes of a number at the place `shift`, when it has read the first byte. -/
theorem decodeLoop_encodeLoop {c first : Byte} {size acc shift : Nat} {tail : List Byte}
    (hc : c.toNat < 128) (hshift : shift < 64) (hacc : acc < 2 ^ shift) (rest : List Byte)
    (h : encodeLoop c size = first :: tail) :
    decodeLoop first acc shift (tail ++ rest)
      = if size * 2 ^ shift < 2 ^ 31 then some (acc + size * 2 ^ shift, rest) else none := by
  induction size using Nat.strongRecOn generalizing c first acc shift tail with
  | ind size ih =>
    rcases encodeLoop_cases c size with ⟨rfl, hend⟩ | ⟨hpos, hnext⟩
    · obtain ⟨rfl, rfl⟩ := List.cons.inj (h.symm.trans hend)
      rw [List.nil_append, decodeLoop_last hc, if_pos (by omega), Nat.zero_mul, Nat.add_zero]
    · obtain ⟨rfl, rfl⟩ := List.cons.inj (h.symm.trans hnext)
      have hgroup : (UInt8.ofNat (size % 128)).toNat = size % 128 := by
        rw [UInt8.toNat_ofNat']
        omega
      have hgroupLt : (UInt8.ofNat (size % 128)).toNat < 128 := by omega
      obtain ⟨b, tail, htail, hb⟩ := encodeLoop_first hgroupLt (size / 128)
      rw [htail, List.cons_append, decodeLoop_next (by rw [byte_or_high hc]; omega), hb, hgroup,
        shiftInt_eq]
      by_cases hdef : shift < 32 ∧ size % 128 * 2 ^ shift < 2 ^ 31
      · -- The seven bits are added below the place of the others.
        have hpow : 2 ^ (shift + 7) = 128 * 2 ^ shift := by
          rw [Nat.pow_add]
          omega
        have hsum : acc + size % 128 * 2 ^ shift < 2 ^ (shift + 7) := by
          have hle : size % 128 * 2 ^ shift ≤ 127 * 2 ^ shift :=
            Nat.mul_le_mul_right _ (by omega)
          omega
        have hwide : 2 ^ (shift + 7) ≤ 2 ^ 64 := Nat.pow_le_pow_right (by decide) (by omega)
        have hsize : size % 128 * 2 ^ shift + size / 128 * 2 ^ (shift + 7) = size * 2 ^ shift := by
          rw [hpow, ← Nat.mul_assoc, ← Nat.add_mul, Nat.mul_comm (size / 128), Nat.mod_add_div]
        have hacc' : (acc + size % 128 * 2 ^ shift) % 2 ^ 64 = acc + size % 128 * 2 ^ shift :=
          Nat.mod_eq_of_lt (by omega)
        have hshift' : (shift + 7) % 2 ^ 32 = shift + 7 := Nat.mod_eq_of_lt (by omega)
        rw [if_pos hdef, Option.bind_some, hacc', hshift',
          ih (size / 128) (by omega) hgroupLt (by omega) hsum htail, Nat.add_assoc, hsize]
        refine if_congr ?_ rfl rfl
        rw [shifted_lt_iff hpos, and_iff_right hdef]
      · rw [if_neg hdef, if_neg (by rw [shifted_lt_iff hpos]; exact fun hall => hdef hall.1)]
        rfl

/-! ### Headers -/

/-- The reader gets back the type and the size that were written, and goes on behind them,
whatever is there. -/
def RoundTrips (type : ObjectType) (size : Nat) : Prop :=
  ∃ hdr, encodeHeader type size = some hdr
    ∧ ∀ rest, decodeHeader (hdr ++ rest) = some (type.code, size, rest)

/-- The first byte has the type and four bits of the size. -/
theorem firstByte_toNat {t n : Nat} (ht : t < 8) (hn : n < 16) :
    (UInt8.ofNat ((t <<< 4) ||| n)).toNat = 16 * t + n := by
  have hor := Nat.two_pow_add_eq_or_of_lt (i := 4) hn t
  rw [Nat.shiftLeft_eq, Nat.mul_comm, ← hor, UInt8.toNat_ofNat']
  omega

/-- The type and the low bits of the size in the first byte. -/
theorem firstByte_fields {oneByte : Byte} {t n : Nat} (hn : n < 16)
    (h : oneByte.toNat % 128 = 16 * t + n) :
    ((oneByte >>> 4) &&& 7).toNat = t ∧ (oneByte &&& 15).toNat = n := by
  constructor
  · rw [UInt8.toNat_and, UInt8.toNat_shiftRight]
    show oneByte.toNat >>> 4 &&& (2 ^ 3 - 1) = t
    rw [Nat.and_two_pow_sub_one_eq_mod, Nat.shiftRight_eq_div_pow]
    omega
  · rw [UInt8.toNat_and]
    show oneByte.toNat &&& (2 ^ 4 - 1) = n
    rw [Nat.and_two_pow_sub_one_eq_mod]
    omega

/-- Every type but `ext` is encoded, with the rest of the size behind the first byte. -/
theorem encodeHeader_eq {type : ObjectType} (htype : type ≠ .ext) (size : Nat) :
    encodeHeader type size
      = some (encodeLoop (UInt8.ofNat ((type.code <<< 4) ||| (size % 16))) (size / 16)) := by
  have hcode : ¬(type.code < ObjectType.commit.code ∨ ObjectType.delta.code < type.code) := by
    cases type with
    | ext => exact absurd rfl htype
    | _ => decide
  rw [encodeHeader, if_neg hcode, Nat.shiftRight_eq_div_pow,
    show size &&& 15 = size % 16 from Nat.and_two_pow_sub_one_eq_mod size 4]

/-- What the reader makes of a header. -/
theorem decodeHeader_encodeHeader {type : ObjectType} (htype : type ≠ .ext) (size : Nat) :
    ∃ hdr, encodeHeader type size = some hdr ∧ ∀ rest, decodeHeader (hdr ++ rest)
      = if size < 2 ^ 31 then some (type.code, size, rest) else none := by
  have hcode : type.code < 8 := by
    cases type with
    | _ => decide
  have hbyte := firstByte_toNat hcode (Nat.mod_lt size (by decide : 0 < 16))
  refine ⟨_, encodeHeader_eq htype size, fun rest => ?_⟩
  obtain ⟨first, tail, henc, hfirst⟩ :=
    encodeLoop_first (c := UInt8.ofNat ((type.code <<< 4) ||| (size % 16))) (by omega) (size / 16)
  obtain ⟨htypeBits, hsizeBits⟩ :=
    firstByte_fields (Nat.mod_lt size (by decide : 0 < 16)) (hfirst.trans hbyte)
  rw [henc, List.cons_append, decodeHeader, htypeBits, hsizeBits,
    decodeLoop_encodeLoop (by omega) (by decide) (by omega) rest henc]
  by_cases hsize : size < 2 ^ 31
  · rw [if_pos (by omega), if_pos hsize, Option.map_some]
    show some (type.code, size % 16 + size / 16 * 16, rest) = some (type.code, size, rest)
    rw [Nat.mod_add_div']
  · rw [if_neg (by omega), if_neg hsize]
    rfl

/-- A header is read back when its size is an `int`. -/
theorem roundTrips_iff (type : ObjectType) (size : Nat)
    (htype : 1 ≤ type.code ∧ type.code ≤ 4) : RoundTrips type size ↔ size < 2 ^ 31 := by
  have hext : type ≠ .ext := by
    rintro rfl
    exact absurd htype.1 (by decide)
  obtain ⟨hdr, henc, hdec⟩ := decodeHeader_encodeHeader hext size
  constructor
  · rintro ⟨hdr', henc', hdec'⟩
    obtain rfl : hdr = hdr' := Option.some.inj (henc.symm.trans henc')
    by_contra hnot
    have hnone := hdec []
    rw [if_neg hnot, hdec' []] at hnone
    exact Option.some_ne_none _ hnone
  · intro hlt
    refine ⟨hdr, henc, fun rest => ?_⟩
    rw [hdec rest, if_pos hlt]

/-- A blob of a thousand bytes goes through. -/
theorem roundTrips_blob : RoundTrips .blob 1000 :=
  (roundTrips_iff .blob 1000 (by decide)).mpr (by decide)

/-- A blob of 2 GiB. -/
theorem not_roundTrips_two_gib : ¬RoundTrips .blob (2 ^ 31) := by
  rintro ⟨hdr, henc, hdec⟩
  have hblob : ObjectType.blob ≠ .ext := by decide
  obtain ⟨hdr', henc', hdec'⟩ := decodeHeader_encodeHeader hblob (2 ^ 31)
  obtain rfl : hdr = hdr' := Option.some.inj (henc.symm.trans henc')
  have hnone := hdec' []
  rw [if_neg (by decide), hdec []] at hnone
  exact Option.some_ne_none _ hnone

end LearnGit.Proofs.GitPack
