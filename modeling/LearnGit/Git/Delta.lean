import Mathlib

/-!
# `LearnGit.Git.Delta`: what a delta says

`delta.h`, `patch-delta.c` and `count-delta.c`. A delta is two sizes and then commands: a copy from
a buffer, whose offset and size have only those bytes that are not 0, or up to 127 bytes that are
inserted. Nothing of a delta is checked before it is used. A run stops with a `Fault` where the code
leaves a buffer or computes what its type does not hold. `malloc` succeeds.
-/

set_option autoImplicit false

namespace LearnGit.Git.Delta

/-- Why a run has no meaning. -/
inductive Fault where
  /-- A byte outside a buffer is read or written. -/
  | outside
  /-- A value is computed that its type does not hold. -/
  | overflow
  deriving DecidableEq, Repr

/-! ### Reading -/

/-- `DELTA_SIZE_MIN`. -/
def DELTA_SIZE_MIN : Nat := 4

/-- The loop of `get_delta_hdr_size` behind the byte `cmd`. -/
def hdrLoop (size i : Nat) (cmd : UInt8) (data : List UInt8) :
    Except Fault (Nat × List UInt8) :=
  if cmd &&& 0x80 = 0 then .ok (size, data)
  else
    match data with
    | [] => .error .outside
    | cmd :: data =>
      let part := (cmd &&& 0x7f).toNat <<< i
      if 32 ≤ i ∨ 2 ^ 31 ≤ part then .error .overflow else hdrLoop (size ||| part) (i + 7) cmd data

/-- `get_delta_hdr_size`: the size, and the data behind it. -/
def getDeltaHdrSize : List UInt8 → Except Fault (Nat × List UInt8)
  | [] => .error .outside
  | cmd :: data => hdrLoop (cmd &&& 0x7f).toNat 7 cmd data

/-- `if (cmd & flag) value |= *data++ << shift`. -/
def orArg (cmd flag : UInt8) (shift : Nat) (arg : Nat × List UInt8) :
    Except Fault (Nat × List UInt8) :=
  if cmd &&& flag = 0 then .ok arg
  else
    match arg.2 with
    | [] => .error .outside
    | b :: data =>
      if 2 ^ 31 ≤ b.toNat <<< shift then .error .overflow
      else .ok (arg.1 ||| b.toNat <<< shift, data)

/-- Two computations have a result where both have one. -/
theorem bind_eq_ok {α β : Type} {x : Except Fault α} {f : α → Except Fault β} {b : β}
    (h : x >>= f = .ok b) : ∃ a, x = .ok a ∧ f a = .ok b := by
  cases x with
  | error fault => exact nomatch h
  | ok a => exact ⟨a, rfl, h⟩

/-- An argument takes bytes from the front only. -/
theorem orArg_length {cmd flag : UInt8} {shift : Nat} {arg arg' : Nat × List UInt8}
    (h : orArg cmd flag shift arg = .ok arg') : arg'.2.length ≤ arg.2.length := by
  rw [orArg] at h
  split at h
  · cases h
    exact Nat.le_refl _
  · split at h
    · cases h
    · rename_i b data hdata
      split at h
      · cases h
      · cases h
        rw [hdata, List.length_cons]
        exact Nat.le_succ _

/-- The arguments of a copy. -/
structure Copy where
  cpOff : Nat
  cpSize : Nat
  /-- The data behind them. -/
  data : List UInt8

/-- The arguments of the copy command `cmd`. -/
def readCopy (cmd : UInt8) (data : List UInt8) : Except Fault Copy := do
  let off ← orArg cmd 0x01 0 (0, data)
  let off ← orArg cmd 0x02 8 off
  let off ← orArg cmd 0x04 16 off
  let off ← orArg cmd 0x08 24 off
  let size ← orArg cmd 0x10 0 (0, off.2)
  let size ← orArg cmd 0x20 8 size
  .ok ⟨off.1, if size.1 = 0 then 0x10000 else size.1, size.2⟩

/-- The arguments of a copy are taken from the front. -/
theorem readCopy_length {cmd : UInt8} {data : List UInt8} {copy : Copy}
    (h : readCopy cmd data = .ok copy) : copy.data.length ≤ data.length := by
  obtain ⟨off₀, h₀, h⟩ := bind_eq_ok h
  obtain ⟨off₁, h₁, h⟩ := bind_eq_ok h
  obtain ⟨off₂, h₂, h⟩ := bind_eq_ok h
  obtain ⟨off₃, h₃, h⟩ := bind_eq_ok h
  obtain ⟨size₀, h₄, h⟩ := bind_eq_ok h
  obtain ⟨size₁, h₅, h⟩ := bind_eq_ok h
  cases h
  have hsize : size₀.2.length ≤ ((0 : Nat), off₃.2).2.length := orArg_length h₄
  calc size₁.2.length ≤ size₀.2.length := orArg_length h₅
    _ ≤ off₃.2.length := hsize
    _ ≤ off₂.2.length := orArg_length h₃
    _ ≤ off₁.2.length := orArg_length h₂
    _ ≤ off₀.2.length := orArg_length h₁
    _ ≤ ((0 : Nat), data).2.length := orArg_length h₀

/-- What is appended to `out` by a `memcpy` of these bytes into a buffer of `size` bytes. -/
def append (size : Nat) (out bytes : List UInt8) : Except Fault (List UInt8) :=
  if out.length + bytes.length ≤ size then .ok (out ++ bytes) else .error .outside

/-- The `n` bytes of a buffer from an offset on. -/
def sliceOf (buf : List UInt8) (off n : Nat) : Except Fault (List UInt8) :=
  if off + n ≤ buf.length then .ok ((buf.drop off).take n) else .error .outside

/-- One round of the loop of `patch_delta`: `out` and `data` behind the command `cmd`. A copy from
`dst_buf` takes what has been written to it. Bytes of `dst_buf` that are not written yet count as
outside of it, where `memcpy` would copy whatever they are. -/
def patchRound (src : List UInt8) (size : Nat) (cmd : UInt8) (data out : List UInt8) :
    Except Fault (List UInt8 × List UInt8) := do
  if cmd &&& 0x80 = 0 then
    let bytes ← sliceOf data 0 cmd.toNat
    let out ← append size out bytes
    .ok (out, data.drop cmd.toNat)
  else
    let copy ← readCopy cmd data
    let bytes ← sliceOf (if cmd &&& 0x40 = 0 then src else out) copy.cpOff copy.cpSize
    let out ← append size out bytes
    .ok (out, copy.data)

/-- A round does not go back. -/
theorem patchRound_length {src : List UInt8} {size : Nat} {cmd : UInt8} {data out out' data' :
    List UInt8} (h : patchRound src size cmd data out = .ok (out', data')) :
    data'.length ≤ data.length := by
  rw [patchRound] at h
  split at h
  · obtain ⟨bytes, -, h⟩ := bind_eq_ok h
    obtain ⟨out, -, h⟩ := bind_eq_ok h
    cases h
    rw [List.length_drop]
    exact Nat.sub_le _ _
  · obtain ⟨copy, hcopy, h⟩ := bind_eq_ok h
    obtain ⟨bytes, -, h⟩ := bind_eq_ok h
    obtain ⟨out, -, h⟩ := bind_eq_ok h
    cases h
    exact readCopy_length hcopy

/-- The loop of `patch_delta`. -/
def patchLoop (src : List UInt8) (size : Nat) (data out : List UInt8) :
    Except Fault (List UInt8) :=
  match data with
  | [] => .ok out
  | cmd :: data =>
    match _hround : patchRound src size cmd data out with
    | .error fault => .error fault
    | .ok (out, rest) => patchLoop src size rest out
termination_by data.length
decreasing_by exact Nat.lt_succ_of_le (patchRound_length _hround)

/-- `patch_delta`. The loop ends at `top`, since a round that goes behind it has read there. -/
def patchDelta (src delta : List UInt8) : Except Fault (Option (List UInt8)) := do
  if delta.length < DELTA_SIZE_MIN then .ok none
  else
    let (srcSize, data) ← getDeltaHdrSize delta
    if srcSize ≠ src.length then .ok none
    else
      let (size, data) ← getDeltaHdrSize data
      let out ← patchLoop src size data []
      .ok (if out.length ≠ size then none else some out)

/-- What `count_delta` adds up. -/
structure Counts where
  copiedFromSource : Nat
  addedLiteral : Nat
  out : Nat
  deriving DecidableEq, Repr

/-- One round of the loop of `count_delta`, which may leave `data` behind `top`. -/
def countRound (cmd : UInt8) (data : List UInt8) (c : Counts) :
    Except Fault (Counts × Option (List UInt8)) := do
  if cmd &&& 0x80 = 0 then
    let c := ⟨c.copiedFromSource, c.addedLiteral + cmd.toNat, c.out + cmd.toNat⟩
    .ok (c, if data.length < cmd.toNat then none else some (data.drop cmd.toNat))
  else
    let copy ← readCopy cmd data
    let copied := if cmd &&& 0x40 = 0 then copy.cpSize else 0
    .ok (⟨c.copiedFromSource + copied, c.addedLiteral, c.out + copy.cpSize⟩, some copy.data)

/-- A round does not go back. -/
theorem countRound_length {cmd : UInt8} {data data' : List UInt8} {c c' : Counts}
    (h : countRound cmd data c = .ok (c', some data')) : data'.length ≤ data.length := by
  rw [countRound] at h
  split at h
  · injection h with h
    injection h with _ hdata
    split at hdata
    · cases hdata
    · cases hdata
      rw [List.length_drop]
      exact Nat.sub_le _ _
  · obtain ⟨copy, hcopy, h⟩ := bind_eq_ok h
    cases h
    exact readCopy_length hcopy

/-- The loop of `count_delta`, and whether it ends with `data == top`. -/
def countLoop (data : List UInt8) (c : Counts) : Except Fault (Counts × Bool) :=
  match data with
  | [] => .ok (c, true)
  | cmd :: data =>
    match _hround : countRound cmd data c with
    | .error fault => .error fault
    | .ok (c, none) => .ok (c, false)
    | .ok (c, some rest) => countLoop rest c
termination_by data.length
decreasing_by exact Nat.lt_succ_of_le (countRound_length _hround)

/-- `count_delta`: `src_copied` and `literal_added`. -/
def countDelta (delta : List UInt8) : Except Fault (Option (Nat × Nat)) := do
  if delta.length < DELTA_SIZE_MIN then .ok none
  else
    let (_, data) ← getDeltaHdrSize delta
    let (dstSize, data) ← getDeltaHdrSize data
    let (c, atTop) ← countLoop data ⟨0, 0, 0⟩
    .ok (if atTop = false ∨ c.out ≠ dstSize then none
      else some (c.copiedFromSource, c.addedLiteral))

end LearnGit.Git.Delta
