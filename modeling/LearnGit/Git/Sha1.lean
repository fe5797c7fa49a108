import LearnGit.Lib.Loop
import LearnGit.Lib.SecureHash

/-!
# `LearnGit.Git.Sha1`: the hash of the objects

`sha1.c`, which is the same in `gitpack_parse`, `mozilla-sha1` and `test_git/mozilla-sha1` up to
`sha1_to_hex`. The context takes one byte after another into `W`, by a shift of the word that
`lenW` names, and `shaHashBlock` runs when `lenW` has reached 64. The shifts do not clear what a
block before has left in a word: it is shifted out by the time the word is full.

`sizeHi` and `sizeLo` are the length in bits, with a carry by hand.
-/

set_option autoImplicit false

namespace LearnGit.Git

open LearnGit.Lib LearnGit.Lib.SecureHash

/-- `SHA_CTX`. -/
structure ShaCtx where
  H : Vector Word 5
  W : Vector Word 80
  lenW : Nat
  sizeHi : Word
  sizeLo : Word
  lenW_lt : lenW < 64

/-- A block is not empty. -/
theorem zero_lt_block : 0 < 64 := by decide

/-- `SHA1_Init`. -/
def sha1Init : ShaCtx where
  H := #v[0x67452301, 0xefcdab89, 0x98badcfe, 0x10325476, 0xc3d2e1f0]
  W := .replicate 80 0
  lenW := 0
  sizeHi := 0
  sizeLo := 0
  lenW_lt := zero_lt_block

/-- `SHA_ROT`. -/
def shaRot (x : Word) (n : Nat) : Word := (x <<< n) ||| (x >>> (32 - n))

/-- The body of the loops of `shaHashBlock`, with the term and the constant that tell them apart.
The fields are `A` to `E`. -/
def shaRound (term : Word → Word → Word → Word) (constant w : Word) (r : Working) : Working :=
  let TEMP := shaRot r.a 5 + term r.b r.c r.d + r.e + w + constant
  ⟨TEMP, r.a, shaRot r.b 30, r.c, r.d⟩

/-- The words `W[16]` to `W[79]`. -/
def shaExpand (W : Vector Word 80) : Vector Word 80 :=
  forUp 16 80
    (fun t _ _ W => W.set t (shaRot (W[t - 3] ^^^ W[t - 8] ^^^ W[t - 14] ^^^ W[t - 16]) 1)) W

/-- The four loops over the registers. -/
def shaRounds (W : Vector Word 80) (r : Working) : Working :=
  let r := forUp 0 20
    (fun t _ _ => shaRound (fun B C D => ((C ^^^ D) &&& B) ^^^ D) 0x5a827999 W[t]) r
  let r := forUp 20 40 (fun t _ _ => shaRound (fun B C D => B ^^^ C ^^^ D) 0x6ed9eba1 W[t]) r
  let r := forUp 40 60
    (fun t _ _ => shaRound (fun B C D => (B &&& C) ||| (D &&& (B ||| C))) 0x8f1bbcdc W[t]) r
  forUp 60 80 (fun t _ _ => shaRound (fun B C D => B ^^^ C ^^^ D) 0xca62c1d6 W[t]) r

def shaHashBlock (H : Vector Word 5) (W : Vector Word 80) : Vector Word 5 × Vector Word 80 :=
  let W := shaExpand W
  let r := shaRounds W ⟨H[0], H[1], H[2], H[3], H[4]⟩
  (#v[H[0] + r.a, H[1] + r.b, H[2] + r.c, H[3] + r.d, H[4] + r.e], W)

/-- One round of `SHA1_Update`. -/
def sha1Byte (ctx : ShaCtx) (b : UInt8) : ShaCtx :=
  have hword : ctx.lenW / 4 < 80 := by
    have := ctx.lenW_lt
    omega
  let W := ctx.W.set (ctx.lenW / 4) (ctx.W[ctx.lenW / 4] <<< 8 ||| b.toBitVec.setWidth 32)
  let sizeLo := ctx.sizeLo + 8
  let sizeHi := ctx.sizeHi + if sizeLo < 8 then 1 else 0
  if hfull : (ctx.lenW + 1) % 64 = 0 then
    let hashed := shaHashBlock ctx.H W
    { H := hashed.1, W := hashed.2, lenW := 0, sizeHi, sizeLo, lenW_lt := zero_lt_block }
  else
    { H := ctx.H, W, lenW := ctx.lenW + 1, sizeHi, sizeLo
      lenW_lt := by
        have := ctx.lenW_lt
        omega }

/-- `SHA1_Update` with `len` bytes. -/
def sha1Update (ctx : ShaCtx) (dataIn : List UInt8) : ShaCtx := dataIn.foldl sha1Byte ctx

/-- `lenW` counts the bytes of a block. -/
theorem sha1Byte_lenW (ctx : ShaCtx) (b : UInt8) : (sha1Byte ctx b).lenW = (ctx.lenW + 1) % 64 := by
  have hlt := ctx.lenW_lt
  simp only [sha1Byte]
  split
  · show 0 = _
    omega
  · show ctx.lenW + 1 = _
    omega

/-- The loop of `SHA1_Final` that appends zeros. -/
def sha1Zeros (ctx : ShaCtx) : ShaCtx :=
  if ctx.lenW = 56 then ctx else sha1Zeros (sha1Update ctx [0])
termination_by (120 - ctx.lenW) % 64
decreasing_by
  have hlt := ctx.lenW_lt
  show (120 - (sha1Byte ctx 0).lenW) % 64 < _
  rw [sha1Byte_lenW]
  omega

/-- The bytes of a size, from the highest on. -/
def sizeBytes (size : Word) : List UInt8 :=
  [UInt8.ofBitVec (((size >>> 24) &&& 255).setWidth 8),
    UInt8.ofBitVec (((size >>> 16) &&& 255).setWidth 8),
    UInt8.ofBitVec (((size >>> 8) &&& 255).setWidth 8),
    UInt8.ofBitVec (((size >>> 0) &&& 255).setWidth 8)]

/-- One round of the loop of `SHA1_Final` that writes `hashout`, which is with `H` the state. -/
def sha1OutputRound (i : Nat) (hi : i < 20) (s : Vector UInt8 20 × Vector Word 5) :
    Vector UInt8 20 × Vector Word 5 :=
  (s.1.set i (UInt8.ofBitVec ((s.2[i / 4] >>> 24).setWidth 8)),
    s.2.set (i / 4) (s.2[i / 4] <<< 8))

def sha1Output (H : Vector Word 5) : Vector UInt8 20 :=
  (forUp 0 20 (fun i _ hi => sha1OutputRound i hi) (.replicate 20 0, H)).1

/-- `SHA1_Final`: `hashout`, and the context that it leaves. -/
def sha1Final (ctx : ShaCtx) : Vector UInt8 20 × ShaCtx :=
  let padlen := sizeBytes ctx.sizeHi ++ sizeBytes ctx.sizeLo
  let ctx := sha1Update ctx [0x80]
  let ctx := sha1Zeros ctx
  let ctx := sha1Update ctx padlen
  (sha1Output ctx.H, sha1Init)

end LearnGit.Git
