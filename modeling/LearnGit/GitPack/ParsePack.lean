import Mathlib
import LearnGit.Lib.Bytes

/-!
# `LearnGit.GitPack.ParsePack`: the header of an object in a pack

`encode_header` of `test_git/pack-objects.c` writes the type and the size of an object, and the
loop in `main` of `gitpack_parse/parse_pack.c` reads them. The first byte has the low four bits of
the size below three bits for the type, each further byte has seven bits of the size, and the bit
0x80 says that a byte follows.

Sizes are `unsigned long`, of 64 bits. The reader shifts an `int`, of 32 bits, and the value of a
shift that does not fit is not defined: the result is `none` there, and where the bytes end.
-/

set_option autoImplicit false

namespace LearnGit.GitPack

abbrev Byte := UInt8

/-- `enum object_type` of `pack.h`. -/
inductive ObjectType where
  | ext
  | commit
  | tree
  | blob
  | tag
  | delta
  deriving DecidableEq, Repr

namespace ObjectType

/-- The value of the enumerator. -/
def code : ObjectType → Nat
  | ext => 0
  | commit => 1
  | tree => 2
  | blob => 3
  | tag => 4
  | delta => 7

end ObjectType

/-! ### Writing -/

/-- The loop of `encode_header` and the byte behind it. -/
def encodeLoop (c : Byte) (size : Nat) : List Byte :=
  if _h : size = 0 then [c]
  else (c ||| 0x80) :: encodeLoop (UInt8.ofNat (size &&& 0x7f)) (size >>> 7)
termination_by size
decreasing_by
  rw [Nat.shiftRight_eq_div_pow]
  omega

/-- `encode_header`: the bytes it writes to `hdr`. It is `none` when it dies of a bad type. -/
def encodeHeader (type : ObjectType) (size : Nat) : Option (List Byte) :=
  if type.code < ObjectType.commit.code ∨ ObjectType.delta.code < type.code then none
  else some (encodeLoop (UInt8.ofNat ((type.code <<< 4) ||| (size &&& 15))) (size >>> 4))

/-! ### Reading -/

/-- `x << shift` on an `int` that is not negative, where it is defined. -/
def shiftInt (x shift : Nat) : Option Nat :=
  if shift < 32 ∧ x <<< shift < 2 ^ 31 then some (x <<< shift) else none

/-- The `while` loop, with the bytes from `packData` on. The result is the size and the bytes that
are left. -/
def decodeLoop (oneByte : Byte) (size shift : Nat) : List Byte → Option (Nat × List Byte)
  | [] => if oneByte &&& 0x80 = 0 then some (size, []) else none
  | b :: packData =>
    if oneByte &&& 0x80 = 0 then some (size, b :: packData)
    else
      (shiftInt (b &&& 0x7F).toNat shift).bind fun part =>
        decodeLoop b ((size + part) % 2 ^ 64) ((shift + 7) % 2 ^ 32) packData

/-- The type and the size of the object at `packData`, and the bytes behind them. -/
def decodeHeader : List Byte → Option (Nat × Nat × List Byte)
  | [] => none
  | oneByte :: packData =>
    (decodeLoop oneByte (oneByte &&& 15).toNat 4 packData).map fun r =>
      (((oneByte >>> 4) &&& 7).toNat, r.1, r.2)

end LearnGit.GitPack
