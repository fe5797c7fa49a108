import LearnGit.Git.Delta

/-!
# `LearnGit.Git.DiffDelta`: how a delta is made

`diff-delta.c`. The blocks of 16 bytes of the old buffer are in a hash table over their checksums.
At each place of the new buffer the longest match among the blocks with the checksum of the next 16
bytes is copied, or a byte is inserted where there is none, or where its command would be longer
than itself. The number of inserted bytes stands in front of them and is written behind them, so
that there is a byte of `out` in between that has not been written: `junk`.

Sizes from `2 ^ 31` on, which the code cuts to an `int`, are a `Fault` here. `malloc` succeeds.
-/

set_option autoImplicit false

namespace LearnGit.Git.Delta

/-- `BLK_SIZE`. -/
def BLK_SIZE : Nat := 16

/-- `HASH`. -/
def hash (v : BitVec 32) (b : Nat) : Nat := ((v * 0x9e370001) >>> (32 - b)).toNat

/-- `BASE`. -/
def BASE : BitVec 32 := 65521

/-- `NMAX`. -/
def NMAX : Nat := 5552

/-- `DO1` for each of these bytes: `s1` and `s2`. -/
def adlerBytes (s1 s2 : BitVec 32) (buf : List UInt8) : BitVec 32 × BitVec 32 :=
  buf.foldl (fun s b => (s.1 + b.toBitVec.setWidth 32, s.2 + (s.1 + b.toBitVec.setWidth 32)))
    (s1, s2)

/-- The loop of `adler32`. -/
def adlerLoop (s1 s2 : BitVec 32) (buf : List UInt8) : BitVec 32 :=
  if _hdone : buf = [] then (s2 <<< 16) ||| s1
  else
    let k := min buf.length NMAX
    let s := adlerBytes s1 s2 (buf.take k)
    adlerLoop (s.1 % BASE) (s.2 % BASE) (buf.drop k)
termination_by buf.length
decreasing_by
  have hpos := List.length_pos_iff.mpr _hdone
  rw [List.length_drop, NMAX]
  omega

def adler32 (adler : BitVec 32) (buf : List UInt8) : BitVec 32 :=
  adlerLoop (adler &&& 0xffff) (adler >>> 16) buf

/-- The loop of `hashbits`, with the rounds that are left. -/
def hashbitsLoop (size : Nat) : Nat → Nat → Nat → Nat
  | 0, _, bits => bits
  | left + 1, val, bits => if val < size then hashbitsLoop size left (val <<< 1) (bits + 1) else bits

def hashbits (size : Nat) : Nat :=
  let bits := hashbitsLoop size 32 1 0
  if bits = 0 then 1 else bits

/-- `bdrecord_t`: `ptr` is the offset in the old buffer. The chain through `next` is a list. -/
structure BdRecord where
  fp : BitVec 32
  ptr : Nat

/-- `bdfile_t`. -/
structure BdFile where
  data : List UInt8
  fphbits : Nat
  fphash : Nat → List BdRecord

/-- One round of the loop of `delta_prepare`, for the block `k`. -/
def prepareRound (buf : List UInt8) (fphbits k : Nat) (fphash : Nat → List BdRecord) :
    Nat → List BdRecord :=
  let ptr := k * BLK_SIZE
  let fp := adler32 0 ((buf.drop ptr).take BLK_SIZE)
  let i := hash fp fphbits
  Function.update fphash i (⟨fp, ptr⟩ :: fphash i)

/-- The loop of `delta_prepare`, from the block `k` down. -/
def prepareLoop (buf : List UInt8) (fphbits : Nat) :
    Nat → (Nat → List BdRecord) → Nat → List BdRecord
  | 0, fphash => prepareRound buf fphbits 0 fphash
  | k + 1, fphash => prepareLoop buf fphbits k (prepareRound buf fphbits (k + 1) fphash)

/-- The last block, which is not empty. -/
def lastBlock (bufsize : Nat) : Nat :=
  if bufsize / BLK_SIZE * BLK_SIZE = bufsize then bufsize / BLK_SIZE - 1 else bufsize / BLK_SIZE

/-- `delta_prepare`, for a buffer that is not empty and shorter than `2 ^ 31` bytes, so that the
offsets are numbers of an `int`. -/
def deltaPrepare (buf : List UInt8) : BdFile :=
  let fphbits := hashbits (buf.length / BLK_SIZE + 1)
  ⟨buf, fphbits, prepareLoop buf fphbits (lastBlock buf.length) fun _ => []⟩

/-- How many bytes two buffers have in common. -/
def matchLength : List UInt8 → List UInt8 → Nat
  | a :: as, b :: bs => if a = b then matchLength as bs + 1 else 0
  | _, _ => 0

/-- The search along a chain: `moff` and `msize`. -/
def searchLoop (bdf : BdFile) (fp : BitVec 32) (data : List UInt8) :
    List BdRecord → Nat → Nat → Nat × Nat
  | [], moff, msize => (moff, msize)
  | brec :: next, moff, msize =>
    if brec.fp = fp then
      let csize := matchLength (bdf.data.drop brec.ptr) data
      if csize > msize then
        if csize ≥ 0x10000 then (brec.ptr, 0x10000) else searchLoop bdf fp data next brec.ptr csize
      else searchLoop bdf fp data next moff msize
    else searchLoop bdf fp data next moff msize

/-- The match for the bytes ahead. -/
def search (bdf : BdFile) (data : List UInt8) : Nat × Nat :=
  let fp := adler32 0 (data.take BLK_SIZE)
  searchLoop bdf fp data (bdf.fphash (hash fp bdf.fphbits)) 0 0

/-- `!!(v & 0xff)`. -/
def hasByte (v : Nat) : Nat := if v &&& 0xff ≠ 0 then 1 else 0

/-- `COPYOP_SIZE`. -/
def copyopSize (o s : Nat) : Nat :=
  hasByte o + hasByte (o >>> 8) + hasByte (o >>> 16) + hasByte (o >>> 24) + hasByte s
    + hasByte (s >>> 8) + 1

/-- `if (v & 0xff) out[outpos++] = v`. -/
def argBytes (v : Nat) : List UInt8 := if v &&& 0xff ≠ 0 then [UInt8.ofNat v] else []

/-- `if (v & 0xff) i |= flag`. -/
def argFlag (v : Nat) (flag : UInt8) : UInt8 := if v &&& 0xff ≠ 0 then flag else 0

/-- The command of a copy. -/
def copyCommand (moff msize : Nat) : List UInt8 :=
  ((0x80 : UInt8) ||| argFlag moff 0x01 ||| argFlag (moff >>> 8) 0x02 ||| argFlag (moff >>> 16) 0x04
      ||| argFlag (moff >>> 24) 0x08 ||| argFlag msize 0x10 ||| argFlag (msize >>> 8) 0x20)
    :: (argBytes moff ++ argBytes (moff >>> 8) ++ argBytes (moff >>> 16) ++ argBytes (moff >>> 24)
      ++ argBytes msize ++ argBytes (msize >>> 8))

/-- A size at the start of a delta. -/
def hdrBytes (size : Nat) : List UInt8 :=
  if _hlast : size >>> 7 = 0 then [UInt8.ofNat size]
  else (UInt8.ofNat size ||| 0x80) :: hdrBytes (size >>> 7)
termination_by size
decreasing_by
  rw [Nat.shiftRight_eq_div_pow] at _hlast ⊢
  omega

/-- The variables of the loop of `diff_delta`: `data` is what is ahead, and `out` has `outpos`
bytes. -/
structure DiffState where
  data : List UInt8
  out : List UInt8
  outsize : Nat
  inscnt : Nat

/-- Bytes that are written behind `out`. -/
def emit (s : DiffState) (bytes : List UInt8) : Except Fault (List UInt8) :=
  if s.out.length + bytes.length ≤ s.outsize then .ok (s.out ++ bytes) else .error .outside

/-- `out[outpos - inscnt - 1] = inscnt`. -/
def closeInsert (out : List UInt8) (inscnt : Nat) : List UInt8 :=
  if inscnt ≠ 0 then out.set (out.length - inscnt - 1) (UInt8.ofNat inscnt) else out

/-- A byte that is inserted, in front of `data`. -/
def insertRound (junk : UInt8) (s : DiffState) (b : UInt8) (data : List UInt8) :
    Except Fault DiffState := do
  let out ← emit s (if s.inscnt = 0 then [junk, b] else [b])
  let inscnt := s.inscnt + 1
  if inscnt = 0x7f then .ok ⟨data, closeInsert out inscnt, s.outsize, 0⟩
  else .ok ⟨data, out, s.outsize, inscnt⟩

/-- A copy of `msize` bytes. -/
def copyRound (s : DiffState) (moff msize : Nat) : Except Fault DiffState := do
  let out ← emit { s with out := closeInsert s.out s.inscnt } (copyCommand moff msize)
  .ok ⟨s.data.drop msize, out, s.outsize, 0⟩

/-- One round, up to the checks behind it. -/
def diffRound (bdf : BdFile) (junk : UInt8) (s : DiffState) (b : UInt8) (data : List UInt8) :
    Except Fault DiffState :=
  let m := search bdf s.data
  if m.2 = 0 ∨ m.2 < copyopSize m.1 m.2 then insertRound junk s b data else copyRound s m.1 m.2

/-- More room, for the next round. -/
def grow (s : DiffState) : Except Fault DiffState :=
  if s.out.length > s.outsize - 8 then
    if 2 ^ 31 ≤ s.outsize * 3 then .error .overflow
    else .ok { s with outsize := s.outsize * 3 / 2 }
  else .ok s

/-- An insertion takes one byte. -/
theorem insertRound_data {junk : UInt8} {s s' : DiffState} {b : UInt8} {data : List UInt8}
    (h : insertRound junk s b data = .ok s') : s'.data = data := by
  obtain ⟨out, -, h⟩ := bind_eq_ok h
  dsimp only at h
  split at h <;> (cases h; rfl)

/-- A copy takes the bytes that it says. -/
theorem copyRound_data {s s' : DiffState} {moff msize : Nat}
    (h : copyRound s moff msize = .ok s') : s'.data = s.data.drop msize := by
  obtain ⟨out, -, h⟩ := bind_eq_ok h
  cases h
  rfl

/-- Every round takes at least a byte. -/
theorem diffRound_length {bdf : BdFile} {junk : UInt8} {s s' : DiffState} {b : UInt8}
    {data : List UInt8} (hdata : s.data = b :: data) (h : diffRound bdf junk s b data = .ok s') :
    s'.data.length < s.data.length := by
  rw [diffRound] at h
  split at h
  · rw [insertRound_data h, hdata]
    exact Nat.lt_succ_self _
  · rename_i hcopy
    have hpos : (search bdf s.data).2 ≠ 0 := fun hzero => hcopy (.inl hzero)
    have hlen : s.data.length = data.length + 1 := by
      rw [hdata]
      rfl
    rw [copyRound_data h, List.length_drop]
    omega

/-- More room takes no byte. -/
theorem grow_data {s s' : DiffState} (h : grow s = .ok s') : s'.data = s.data := by
  rw [grow] at h
  split at h
  · split at h
    · cases h
    · cases h
      rfl
  · cases h
    rfl

/-- The loop of `diff_delta`. -/
def diffLoop (bdf : BdFile) (junk : UInt8) (maxSize : Nat) (s : DiffState) :
    Except Fault (Option (List UInt8)) :=
  match _hdata : s.data with
  | [] => .ok (some (closeInsert s.out s.inscnt))
  | b :: data =>
    match _hround : diffRound bdf junk s b data with
    | .error fault => .error fault
    | .ok s' =>
      if maxSize ≠ 0 ∧ s'.out.length > maxSize then .ok none
      else
        match _hgrow : grow s' with
        | .error fault => .error fault
        | .ok s'' => diffLoop bdf junk maxSize s''
termination_by s.data.length
decreasing_by
  rw [grow_data _hgrow]
  exact diffRound_length _hdata _hround

/-- `diff_delta`, where `none` is `NULL`. -/
def diffDelta (junk : UInt8) (src dst : List UInt8) (maxSize : Nat) :
    Except Fault (Option (List UInt8)) := do
  if 2 ^ 31 ≤ src.length ∨ 2 ^ 31 ≤ dst.length then .error .overflow
  else if src = [] ∨ dst = [] then .ok none
  else
    let out ← emit ⟨dst, [], 8192, 0⟩ (hdrBytes src.length ++ hdrBytes dst.length)
    diffLoop (deltaPrepare src) junk maxSize ⟨dst, out, 8192, 0⟩

end LearnGit.Git.Delta
