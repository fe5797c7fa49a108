import LearnGit.WideChar.LanStrings

/-!
# `LearnGit.WideChar.PhoneBuffers`: the decoder with its pointers

`pj_ansi_to_unicode` and `pj_ansi_to_unicode_len` once more, with the pointer `pc` into the bytes
and the index `i` into the buffer. A read behind the bytes or a write behind the buffer is
undefined here, as is an `int` that overflows. `PhoneCommon` has the same functions over the bytes
that are left.

`strValueAt` is the place in `_language_get_strings` where `lan_strings.c` calls them, with its
array of 1024 wide characters.
-/

set_option autoImplicit false

namespace LearnGit.WideChar

open LearnGit.Lib

/-- `*pc`. -/
def byteAt (utf8 : List Byte) (pc : Nat) : Except Fault Byte :=
  match utf8[pc]? with
  | some b => .ok b
  | none => .error .undefined

/-- `outbuf[i++] = c`, where `outbuf` holds what has been written. -/
def putChar (capacity : Nat) (outbuf : List WChar) (c : WChar) : Except Fault (List WChar) :=
  if outbuf.length < capacity then .ok (outbuf ++ [c]) else .error .undefined

/-- The loop of `pj_ansi_to_unicode`. Each round moves `pc`, so there are no more of them than
bytes. -/
def ansiToUnicodeAt (utf8 : List Byte) (wlen : Int) (capacity : Nat) :
    Nat → Nat → List WChar → Except Fault (Filled WChar)
  | 0, _, outbuf => .ok ⟨outbuf, true⟩
  | rounds + 1, pc, outbuf =>
    if utf8.length ≤ pc ∨ wlen ≤ outbuf.length then .ok ⟨outbuf, true⟩
    else do
      let b ← byteAt utf8 pc
      if b = 0 then return ⟨outbuf, true⟩
      else if b &&& 0x80 = 0 then
        let outbuf ← putChar capacity outbuf (UInt32.ofNat b.toNat)
        ansiToUnicodeAt utf8 wlen capacity rounds (pc + 1) outbuf
      else if b &&& 0xe0 = 0xc0 then
        if pc + 1 = utf8.length then
          return ⟨← putChar capacity outbuf QUESTION, true⟩
        else
          let b₁ ← byteAt utf8 (pc + 1)
          let outbuf ← putChar capacity outbuf (UInt32.ofNat (value2 b b₁))
          ansiToUnicodeAt utf8 wlen capacity rounds (pc + 2) outbuf
      else if b &&& 0xf0 = 0xe0 then
        if utf8.length ≤ pc + 2 then
          return ⟨← putChar capacity outbuf QUESTION, true⟩
        else
          let b₁ ← byteAt utf8 (pc + 1)
          let b₂ ← byteAt utf8 (pc + 2)
          if value3 b b₁ b₂ = 0xFEFF ∧ outbuf.length = 0 then
            ansiToUnicodeAt utf8 wlen capacity rounds (pc + 3) outbuf
          else
            let outbuf ← putChar capacity outbuf (UInt32.ofNat (value3 b b₁ b₂))
            ansiToUnicodeAt utf8 wlen capacity rounds (pc + 3) outbuf
      else if b &&& 0xf8 = 0xf0 then
        if utf8.length ≤ pc + 3 then
          return ⟨← putChar capacity outbuf QUESTION, true⟩
        else
          let b₁ ← byteAt utf8 (pc + 1)
          let b₂ ← byteAt utf8 (pc + 2)
          let b₃ ← byteAt utf8 (pc + 3)
          let value := value4 b b₁ b₂ b₃
          if value &&& 0x1fffff ≠ value then .error .assertFailed
          else
            match wide4 value with
            | some wide =>
              let outbuf ← wide.foldlM (putChar capacity) outbuf
              let outbuf ← putChar capacity outbuf (UInt32.ofNat value)
              ansiToUnicodeAt utf8 wlen capacity rounds (pc + 4) outbuf
            | none => .error .assertFailed
      else return ⟨outbuf, false⟩

/-- `pj_ansi_to_unicode` into an array of `capacity` wide characters, which it first clears up to
the size it is given. -/
def pjAnsiToUnicodeAt (utf8 : List Byte) (bufCount : UInt64) (capacity : Nat) :
    Except Fault (Filled WChar) :=
  if capacity * SIZEOF_WCHAR < bufCount.toNat then .error .undefined
  else if utf8.length = 0 then .ok ⟨[], false⟩
  else
    ansiToUnicodeAt utf8 (toInt32 (bufCount.toNat / SIZEOF_WCHAR)) capacity utf8.length 0 []

/-- `i++`. -/
def countUp (i : Nat) : Except Fault Nat := if i < INT_MAX then .ok (i + 1) else .error .undefined

/-- The loop of `pj_ansi_to_unicode_len`. -/
def ansiToUnicodeLenAt (utf8 : List Byte) : Nat → Nat → Nat → Except Fault Nat
  | 0, _, i => .ok i
  | rounds + 1, pc, i =>
    if utf8.length ≤ pc then .ok i
    else do
      let b ← byteAt utf8 pc
      if b = 0 then return i
      else if b &&& 0x80 = 0 then ansiToUnicodeLenAt utf8 rounds (pc + 1) (← countUp i)
      else if b &&& 0xe0 = 0xc0 then
        if pc + 1 = utf8.length then countUp i
        else
          let _b₁ ← byteAt utf8 (pc + 1)
          ansiToUnicodeLenAt utf8 rounds (pc + 2) (← countUp i)
      else if b &&& 0xf0 = 0xe0 then
        if utf8.length ≤ pc + 2 then countUp i
        else
          let b₁ ← byteAt utf8 (pc + 1)
          let b₂ ← byteAt utf8 (pc + 2)
          if value3 b b₁ b₂ = 0xFEFF ∧ i = 0 then ansiToUnicodeLenAt utf8 rounds (pc + 3) i
          else ansiToUnicodeLenAt utf8 rounds (pc + 3) (← countUp i)
      else if b &&& 0xf8 = 0xf0 then
        if utf8.length ≤ pc + 3 then countUp i
        else
          let b₁ ← byteAt utf8 (pc + 1)
          let b₂ ← byteAt utf8 (pc + 2)
          let b₃ ← byteAt utf8 (pc + 3)
          let value := value4 b b₁ b₂ b₃
          if value &&& 0x1fffff ≠ value then .error .assertFailed
          else
            match count4 with
            | some n =>
              let i ← (List.range n).foldlM (fun i _ => countUp i) i
              ansiToUnicodeLenAt utf8 rounds (pc + 4) (← countUp i)
            | none => .error .assertFailed
      else .error .assertFailed

/-- `pj_ansi_to_unicode_len`. -/
def pjAnsiToUnicodeLenAt (utf8 : List Byte) : Except Fault Int :=
  if utf8.length = 0 then .ok (-1)
  else (ansiToUnicodeLenAt utf8 utf8.length 0 0).map fun i => (i : Int)

/-- What `_language_get_strings` makes of the data of a node, with the array `str_value`. It is
`none` where the function returns. -/
def strValueAt (data : List Byte) : Except Fault (Option (List WChar)) := do
  let wlen ← pjAnsiToUnicodeLenAt data
  if wlen = -1 then return none
  else
    let r ← pjAnsiToUnicodeAt data (UInt64.ofNat (wlen.toNat * SIZEOF_WCHAR)) BUFFER
    -- The NUL is written to `str_value[wlen]`.
    if wlen < BUFFER then return some (wcs r.buf) else .error .undefined

end LearnGit.WideChar
