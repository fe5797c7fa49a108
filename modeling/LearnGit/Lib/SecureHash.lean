import LearnGit.Lib.Blocks
import LearnGit.Lib.Bytes

/-!
# `LearnGit.Lib.SecureHash`: the secure hash standard

The hash of a message by the words of the standard: the padded message in blocks of 64 bytes, the
message schedule of a block by its recurrence, 80 rounds on five working variables, and the
big-endian bytes of the last chaining value. Nothing here depends on how a program computes it.
-/

set_option autoImplicit false

namespace LearnGit.Lib.SecureHash

abbrev Word := BitVec 32

/-- The working variables. -/
structure Working where
  a : Word
  b : Word
  c : Word
  d : Word
  e : Word
  deriving DecidableEq, Repr

def Working.ofVector (h : Vector Word 5) : Working := ⟨h.get 0, h.get 1, h.get 2, h.get 3, h.get 4⟩

def Working.toVector (v : Working) : Vector Word 5 := #v[v.a, v.b, v.c, v.d, v.e]

def ch (x y z : Word) : Word := (x &&& y) ^^^ (~~~x &&& z)

def parity (x y z : Word) : Word := x ^^^ y ^^^ z

def maj (x y z : Word) : Word := (x &&& y) ^^^ (x &&& z) ^^^ (y &&& z)

/-- The function of a round. -/
def f (t : Nat) : Word → Word → Word → Word :=
  if t < 20 then ch else if t < 40 then parity else if t < 60 then maj else parity

/-- The constant of a round. -/
def K (t : Nat) : Word :=
  if t < 20 then 0x5a827999 else if t < 40 then 0x6ed9eba1 else if t < 60 then 0x8f1bbcdc
  else 0xca62c1d6

/-- The message schedule of the words of a block. -/
def schedule (M : Nat → Word) (t : Nat) : Word :=
  if t < 16 then M t
  else
    (schedule M (t - 3) ^^^ schedule M (t - 8) ^^^ schedule M (t - 14)
      ^^^ schedule M (t - 16)).rotateLeft 1

/-- One round, with the word of the schedule. -/
def round (t : Nat) (w : Word) (v : Working) : Working where
  a := v.a.rotateLeft 5 + f t v.b v.c v.d + v.e + K t + w
  b := v.a
  c := v.b.rotateLeft 30
  d := v.c
  e := v.d

/-- The rounds before the round `t`. -/
def rounds (M : Nat → Word) (v : Working) : Nat → Working
  | 0 => v
  | t + 1 => round t (schedule M t) (rounds M v t)

/-- The word `j` of a block. -/
def wordOf (block : List UInt8) (j : Nat) : Word :=
  BitVec.ofNat 32 (beNat ((block.drop (4 * j)).take 4))

/-- The chaining value behind a block. -/
def compress (h : Vector Word 5) (block : List UInt8) : Vector Word 5 :=
  Vector.zipWith (· + ·) h (rounds (wordOf block) (.ofVector h) 80).toVector

/-- The chaining value before the first block. -/
def iv : Vector Word 5 :=
  Working.toVector ⟨0x67452301, 0xefcdab89, 0x98badcfe, 0x10325476, 0xc3d2e1f0⟩

/-- How many zeros stand between the bit 1 and the length. -/
def zeros (length : Nat) : Nat := (119 - length % 64) % 64

/-- A message with its padding, whose last 8 bytes are its length in bits. -/
def pad (msg : List UInt8) : List UInt8 :=
  msg ++ [0x80] ++ List.replicate (zeros msg.length) 0 ++ beBytes 8 (8 * msg.length)

/-- The bytes of a chaining value. -/
def digest (h : Vector Word 5) : Vector UInt8 20 :=
  .ofFn fun i => UInt8.ofBitVec ((h[i.val / 4] >>> (24 - 8 * (i.val % 4))).setWidth 8)

/-- The hash of a message. -/
def sha1 (msg : List UInt8) : Vector UInt8 20 :=
  digest (chain 64 compress iv (pad msg) ((pad msg).length / 64))

/-- A padded message is a number of whole blocks. -/
theorem pad_length (msg : List UInt8) : 64 ∣ (pad msg).length := by
  simp only [pad, zeros, List.length_append, List.length_singleton, List.length_replicate,
    beBytes_length]
  omega

/-! ### The functions in other forms -/

/-- The form of `Ch` that saves an operation. -/
theorem ch_eq (x y z : Word) : ((y ^^^ z) &&& x) ^^^ z = ch x y z := by
  ext i hi
  simp only [ch, BitVec.getElem_xor, BitVec.getElem_and, BitVec.getElem_not]
  cases x[i] <;> cases y[i] <;> cases z[i] <;> rfl

/-- The form of `Maj` that saves an operation. -/
theorem maj_eq (x y z : Word) : (x &&& y) ||| (z &&& (x ||| y)) = maj x y z := by
  ext i hi
  simp only [maj, BitVec.getElem_xor, BitVec.getElem_and, BitVec.getElem_or]
  cases x[i] <;> cases y[i] <;> cases z[i] <;> rfl

/-- A word with a byte behind its lowest bytes. -/
theorem toNat_shift_byte (x : Word) (b : UInt8) {k : Nat} (hk : k < 4) :
    (x <<< 8 ||| b.toBitVec.setWidth 32).toNat % 256 ^ (k + 1)
      = x.toNat % 256 ^ k * 256 + b.toNat := by
  have hb : b.toNat < 2 ^ 8 := b.toNat_lt
  have hshift : x.toNat <<< 8 % 2 ^ 32 = (x.toNat % 2 ^ 24) <<< 8 := by
    rw [Nat.shiftLeft_eq, Nat.shiftLeft_eq]
    omega
  have hbyte : (b.toBitVec.setWidth 32).toNat = b.toNat :=
    BitVec.toNat_setWidth_of_le (by decide)
  have hor : (x <<< 8 ||| b.toBitVec.setWidth 32).toNat = x.toNat % 2 ^ 24 * 2 ^ 8 + b.toNat := by
    rw [BitVec.toNat_or, BitVec.toNat_shiftLeft, hbyte, hshift,
      ← Nat.shiftLeft_add_eq_or_of_lt hb, Nat.shiftLeft_eq]
  rw [hor]
  obtain rfl | rfl | rfl | rfl : k = 0 ∨ k = 1 ∨ k = 2 ∨ k = 3 := by omega
  all_goals omega

end LearnGit.Lib.SecureHash
