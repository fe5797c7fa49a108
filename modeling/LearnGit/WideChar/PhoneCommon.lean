import LearnGit.Lib.Bytes

/-!
# `LearnGit.WideChar.PhoneCommon`: UTF-8 in the string tool

`pj_unicode_to_ansi`, `pj_ansi_to_unicode` and `pj_ansi_to_unicode_len` of
`wide_char/language_strings_tool/strings_tool/src/phone_common.c`, with a `wchar_t` of four
bytes, an `int` of 32 bits and a `size_t` of 64 bits.

A string is the list of its characters up to the NUL. A function that fills a buffer returns
what it writes to the front of it, also where it returns a null pointer; the rest is zero.
-/

set_option autoImplicit false

namespace LearnGit.WideChar

open LearnGit.Lib

abbrev Byte := UInt8

abbrev WChar := UInt32

/-- `sizeof(wchar_t)`. -/
def SIZEOF_WCHAR : Nat := 4

def INT_MAX : Nat := 2 ^ 31 - 1

/-- Why a program does not go on. -/
inductive Fault where
  /-- An assertion fails. -/
  | assertFailed
  /-- An array is overrun, or an `int` overflows. -/
  | undefined
  deriving DecidableEq, Repr

/-- What a function has written to its buffer, and whether it returns the buffer. -/
structure Filled (α : Type) where
  buf : List α
  returned : Bool
  deriving DecidableEq, Repr

/-- An `int` as a `size_t`. -/
def sizeOfInt (n : Int) : Nat := (n % 2 ^ 64).toNat

/-- The difference of two values of type `size_t`. -/
def sizeSub (a b : Nat) : Nat := (a + 2 ^ 64 - b) % 2 ^ 64

/-! ### Encoding -/

/-- The bytes of a character. -/
def encodeChar (c : Nat) : Option (List Byte) :=
  if c < 1 <<< 7 then
    some [UInt8.ofNat c]
  else if c < 1 <<< 11 then
    some [UInt8.ofNat (c >>> 6 ||| 0xc0), UInt8.ofNat (c &&& 0x3f ||| 0x80)]
  else if c < 1 <<< 16 then
    some [UInt8.ofNat (c >>> 12 ||| 0xe0), UInt8.ofNat (c >>> 6 &&& 0x3f ||| 0x80),
      UInt8.ofNat (c &&& 0x3f ||| 0x80)]
  else if c < 1 <<< 21 then
    some [UInt8.ofNat (c >>> 18 ||| 0xf0), UInt8.ofNat (c >>> 12 &&& 0x3f ||| 0x80),
      UInt8.ofNat (c >>> 6 &&& 0x3f ||| 0x80), UInt8.ofNat (c &&& 0x3f ||| 0x80)]
  else none

/-- The loop of `pj_unicode_to_ansi`. For `k` bytes it stops when `i >= buf_size - (k - 1)`,
where the difference is not negative. -/
def unicodeToAnsiLoop (bufSize : Nat) : List WChar → List Byte → Except Fault (Filled Byte)
  | [], buf => .ok ⟨buf, true⟩
  | c :: cs, buf =>
    match encodeChar c.toNat with
    | none => .ok ⟨buf, false⟩
    | some bytes =>
      if sizeSub bufSize (bytes.length - 1) ≤ buf.length then .ok ⟨buf, true⟩
      else if bufSize < buf.length + bytes.length ∨ INT_MAX < buf.length + bytes.length then
        .error .undefined
      else unicodeToAnsiLoop bufSize cs (buf ++ bytes)

/-- `pj_unicode_to_ansi`. The length of the string is given in bytes. -/
def pjUnicodeToAnsi (wstr : List WChar) (len bufSize : UInt64) : Except Fault (Filled Byte) :=
  let wlen := sizeOfInt (toInt32 wstr.length)
  let chars := len.toNat / SIZEOF_WCHAR
  unicodeToAnsiLoop bufSize.toNat (wstr.take (if chars < wlen then chars else wlen)) []

/-! ### Decoding -/

/-- The value of a sequence of two bytes. -/
def value2 (b b₁ : Byte) : Nat := (b.toNat &&& 0x1f) <<< 6 ||| b₁.toNat &&& 0x3f

/-- The value of a sequence of three bytes. -/
def value3 (b b₁ b₂ : Byte) : Nat :=
  (b.toNat &&& 0x0f) <<< 12 ||| (b₁.toNat &&& 0x3f) <<< 6 ||| b₂.toNat &&& 0x3f

/-- The value of a sequence of four bytes. -/
def value4 (b b₁ b₂ b₃ : Byte) : Nat :=
  (b.toNat &&& 0x07) <<< 18 ||| (b₁.toNat &&& 0x3f) <<< 12 ||| (b₂.toNat &&& 0x3f) <<< 6 |||
    b₃.toNat &&& 0x3f

/-- What is written for a sequence of four bytes before the value itself. It is `none` where the
assertion on the size of `wchar_t` fails. -/
def wide4 (b : Nat) : Option (List WChar) :=
  if SIZEOF_WCHAR = 16 then
    some [UInt32.ofNat (0xd7c0 + b >>> 10), UInt32.ofNat (0xdc00 ||| b &&& 0x3ff)]
  else if 21 ≤ SIZEOF_WCHAR then some [UInt32.ofNat b]
  else none

/-- The character that stands for a sequence without its end. -/
def QUESTION : WChar := 0x3f

/-- The loop of `pj_ansi_to_unicode`. -/
def ansiToUnicodeLoop (wlen : Int) : List Byte → List WChar → Except Fault (Filled WChar)
  | [], outbuf => .ok ⟨outbuf, true⟩
  | b :: rest, outbuf =>
    if wlen ≤ outbuf.length then .ok ⟨outbuf, true⟩
    else if b = 0 then .ok ⟨outbuf, true⟩
    else if b &&& 0x80 = 0 then
      ansiToUnicodeLoop wlen rest (outbuf ++ [UInt32.ofNat b.toNat])
    else if b &&& 0xe0 = 0xc0 then
      match rest with
      | b₁ :: rest => ansiToUnicodeLoop wlen rest (outbuf ++ [UInt32.ofNat (value2 b b₁)])
      | _ => .ok ⟨outbuf ++ [QUESTION], true⟩
    else if b &&& 0xf0 = 0xe0 then
      match rest with
      | b₁ :: b₂ :: rest =>
        if value3 b b₁ b₂ = 0xFEFF ∧ outbuf.length = 0 then ansiToUnicodeLoop wlen rest outbuf
        else ansiToUnicodeLoop wlen rest (outbuf ++ [UInt32.ofNat (value3 b b₁ b₂)])
      | _ => .ok ⟨outbuf ++ [QUESTION], true⟩
    else if b &&& 0xf8 = 0xf0 then
      match rest with
      | b₁ :: b₂ :: b₃ :: rest =>
        let value := value4 b b₁ b₂ b₃
        if value &&& 0x1fffff ≠ value then .error .assertFailed
        else
          match wide4 value with
          | some wide => ansiToUnicodeLoop wlen rest (outbuf ++ wide ++ [UInt32.ofNat value])
          | none => .error .assertFailed
      | _ => .ok ⟨outbuf ++ [QUESTION], true⟩
    else .ok ⟨outbuf, false⟩

/-- `pj_ansi_to_unicode`. The size of the buffer is given in bytes. -/
def pjAnsiToUnicode (utf8 : List Byte) (bufCount : UInt64) : Except Fault (Filled WChar) :=
  let wlen := toInt32 (bufCount.toNat / SIZEOF_WCHAR)
  if utf8.length = 0 then .ok ⟨[], false⟩
  else ansiToUnicodeLoop wlen utf8 []

/-- How many characters the loop of `pj_ansi_to_unicode_len` counts for a sequence of four bytes
before the last one. -/
def count4 : Option Nat :=
  if SIZEOF_WCHAR = 16 then some 2 else if 21 ≤ SIZEOF_WCHAR then some 1 else none

/-- The loop of `pj_ansi_to_unicode_len`. -/
def ansiToUnicodeLenLoop : List Byte → Nat → Except Fault Nat
  | [], i => .ok i
  | b :: rest, i =>
    if b = 0 then .ok i
    else if b &&& 0x80 = 0 then ansiToUnicodeLenLoop rest (i + 1)
    else if b &&& 0xe0 = 0xc0 then
      match rest with
      | _ :: rest => ansiToUnicodeLenLoop rest (i + 1)
      | _ => .ok (i + 1)
    else if b &&& 0xf0 = 0xe0 then
      match rest with
      | b₁ :: b₂ :: rest =>
        if value3 b b₁ b₂ = 0xFEFF ∧ i = 0 then ansiToUnicodeLenLoop rest i
        else ansiToUnicodeLenLoop rest (i + 1)
      | _ => .ok (i + 1)
    else if b &&& 0xf8 = 0xf0 then
      match rest with
      | b₁ :: b₂ :: b₃ :: rest =>
        let value := value4 b b₁ b₂ b₃
        if value &&& 0x1fffff ≠ value then .error .assertFailed
        else
          match count4 with
          | some n => ansiToUnicodeLenLoop rest (i + n + 1)
          | none => .error .assertFailed
      | _ => .ok (i + 1)
    else .error .assertFailed

/-- `pj_ansi_to_unicode_len`. -/
def pjAnsiToUnicodeLen (utf8 : List Byte) : Except Fault Int :=
  if utf8.length = 0 then .ok (-1)
  else (ansiToUnicodeLenLoop utf8 0).map fun i => (i : Int)

end LearnGit.WideChar
