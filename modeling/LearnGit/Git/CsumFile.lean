import LearnGit.Git.Sha1

/-!
# `LearnGit.Git.CsumFile`: files that end with their hash

`csum-file.c`: what is written to such a file goes through a buffer of 8192 bytes, which is hashed
and flushed when it is full, and `sha1close` appends the hash. A `write` of the system may take
less than it is given, be interrupted or fail, so that the answers to the calls of `write` are part
of the state. A run that needs more answers than there are has not ended.
-/

set_option autoImplicit false

namespace LearnGit.Git

open LearnGit.Lib

/-- What a call of `write` returns. -/
inductive Answer where
  /-- It has taken this many bytes, or all of them when they are fewer. -/
  | wrote (n : Nat)
  /-- `EAGAIN` or `EINTR`. -/
  | again
  /-- Another error. -/
  | failed
  deriving DecidableEq, Repr

/-- Why a run has not come to its end. -/
inductive Stop where
  /-- The answers are used up. -/
  | waiting
  /-- `die("sha1 file '%s' write error. Out of diskspace")`. -/
  | outOfDiskspace
  /-- `die("sha1 file '%s' write error (%s)")`. -/
  | writeError
  /-- `die("%s: sha1 file error on close (%s)")`. -/
  | closeError
  deriving DecidableEq, Repr

/-- A run that stops leaves a file. -/
abbrev Run (α : Type) := Except (Stop × List UInt8) α

/-- The file behind a descriptor, and the answers that are left. -/
structure Fd where
  file : List UInt8
  answers : List Answer

/-- The loop of `sha1flush`, with `count` bytes of the buffer left. -/
def sha1flush : List Answer → List UInt8 → List UInt8 → Run Fd
  | [], file, _ => .error (.waiting, file)
  | .again :: answers, file, buf => sha1flush answers file buf
  | .failed :: _, file, _ => .error (.writeError, file)
  | .wrote ret :: answers, file, buf =>
    if ret = 0 then .error (.outOfDiskspace, file)
    else if buf.drop ret ≠ [] then sha1flush answers (file ++ buf.take ret) (buf.drop ret)
    else .ok ⟨file ++ buf.take ret, answers⟩

/-- `sizeof(f->buffer)`. -/
def BUFFER : Nat := 8192

/-- `struct sha1file`, without its name. -/
structure Sha1file where
  fd : Fd
  offset : Nat
  ctx : ShaCtx
  buffer : List UInt8
  buffer_length : buffer.length = BUFFER
  offset_lt : offset < BUFFER

/-- `sha1fd`, on a file with these bytes. -/
def sha1fd (file : List UInt8) (answers : List Answer) : Sha1file where
  fd := ⟨file, answers⟩
  offset := 0
  ctx := sha1Init
  buffer := List.replicate BUFFER 0
  buffer_length := List.length_replicate
  offset_lt := Nat.succ_pos 8191

/-- How many bytes a round of `sha1write` copies. -/
def roundSize (f : Sha1file) (buf : List UInt8) : Nat :=
  let left := BUFFER - f.offset
  if buf.length > left then left else buf.length

/-- A round does not overrun the buffer. -/
theorem roundSize_le (f : Sha1file) (buf : List UInt8) :
    f.offset + (buf.take (roundSize f buf)).length ≤ f.buffer.length := by
  have hlt := f.offset_lt
  rw [f.buffer_length, List.length_take, roundSize]
  split <;> omega

/-- A round takes at least a byte. -/
theorem roundSize_pos (f : Sha1file) {buf : List UInt8} (h : buf ≠ []) : 0 < roundSize f buf := by
  have hlt := f.offset_lt
  have hpos := List.length_pos_iff.mpr h
  rw [roundSize]
  split <;> omega

/-- `sha1write`. -/
def sha1write (f : Sha1file) (buf : List UInt8) : Run Sha1file :=
  if hdone : buf = [] then .ok f
  else
    let nr := roundSize f buf
    let buffer := copyInto f.buffer f.offset (buf.take nr)
    have hbuffer : buffer.length = BUFFER :=
      (copyInto_length (roundSize_le f buf)).trans f.buffer_length
    let offset := f.offset + nr
    if hfull : BUFFER - f.offset - nr = 0 then
      match sha1flush f.fd.answers f.fd.file (buffer.take offset) with
      | .error stop => .error stop
      | .ok fd =>
        sha1write ⟨fd, 0, sha1Update f.ctx (buffer.take offset), buffer, hbuffer,
          Nat.succ_pos 8191⟩ (buf.drop nr)
    else
      sha1write ⟨f.fd, offset, f.ctx, buffer, hbuffer, by
        simp only [offset]
        omega⟩ (buf.drop nr)
termination_by buf.length
decreasing_by
  all_goals
    have hpos := roundSize_pos f hdone
    have hlen := List.length_pos_iff.mpr hdone
    rw [List.length_drop]
    omega

/-- The part of `sha1close` in front of `SHA1_Final`. -/
def sha1closeFlush (f : Sha1file) : Run (ShaCtx × Fd) :=
  if f.offset ≠ 0 then
    match sha1flush f.fd.answers f.fd.file (f.buffer.take f.offset) with
    | .error stop => .error stop
    | .ok fd => .ok (sha1Update f.ctx (f.buffer.take f.offset), fd)
  else .ok (f.ctx, f.fd)

/-- `sha1close`: `result`, and the file. The argument `closes` says whether `close` succeeds. -/
def sha1close (f : Sha1file) (update closes : Bool) : Run (List UInt8 × List UInt8) :=
  match sha1closeFlush f with
  | .error stop => .error stop
  | .ok (ctx, fd) =>
    let result := (sha1Final ctx).1.toList
    match if update then sha1flush fd.answers fd.file result else .ok fd with
    | .error stop => .error stop
    | .ok fd => if closes then .ok (result, fd.file) else .error (.closeError, fd.file)

end LearnGit.Git
