import LearnGit.Git.Sha1

/-!
# `LearnGit.Proofs.Git.Sha1`: the hash is the one of the standard

The context against the standard. `Holds` relates a context to the chaining value and the open
block of the bytes it was given: of a word that is not full only the lowest bytes are told, since
what is above them is what the block before has left there. One byte keeps it (`holds_byte`), and
a full block is hashed as the standard says (`shaHashBlock_fst`).
-/

set_option autoImplicit false

namespace LearnGit.Proofs.Git

open LearnGit.Git LearnGit.Lib LearnGit.Lib.SecureHash

/-! ### One block -/

/-- The macro rotates to the left. -/
theorem shaRot_eq (x : Word) {n : Nat} (hn : n < 32) : shaRot x n = x.rotateLeft n := by
  rw [shaRot, BitVec.rotateLeft_def, Nat.mod_eq_of_lt hn]

/-- A later word of the schedule is made of four before it. -/
theorem schedule_of_le {M : Nat → Word} {t : Nat} (ht : 16 ≤ t) :
    schedule M t = (schedule M (t - 3) ^^^ schedule M (t - 8) ^^^ schedule M (t - 14)
      ^^^ schedule M (t - 16)).rotateLeft 1 := by
  rw [schedule, if_neg (by omega)]

/-- The words of the message schedule. -/
theorem shaExpand_eq {M : Nat → Word} {W : Vector Word 80}
    (hW : ∀ t (ht : t < 16), W[t] = M t) (t : Nat) (ht : t < 80) :
    (shaExpand W)[t] = schedule M t := by
  refine forUp_induct
    (P := fun i (W : Vector Word 80) => ∀ t (_ : t < i) (ht : t < 80), W[t] = schedule M t)
    (by decide) ?_ ?_ t ht ht
  · intro t hlt ht
    rw [hW t hlt, schedule, if_pos hlt]
  · intro i hlo hhi W ih t hlt ht
    rcases Nat.lt_succ_iff_lt_or_eq.mp hlt with hold | rfl
    · rw [Vector.getElem_set_ne _ _ (by omega)]
      exact ih t hold ht
    · rw [Vector.getElem_set_self, shaRot_eq _ (by decide), ih _ (by omega) (by omega),
        ih _ (by omega) (by omega), ih _ (by omega) (by omega), ih _ (by omega) (by omega),
        schedule_of_le hlo]

/-- One round is the one of the standard, when its term and its constant are. -/
theorem shaRound_eq {term : Word → Word → Word → Word} {constant w : Word} {r : Working} {t : Nat}
    (hterm : ∀ B C D, term B C D = f t B C D) (hconstant : constant = K t) :
    shaRound term constant w r = SecureHash.round t w r := by
  have hsum : ∀ x y z w : Word, x + y + z + w + K t = x + y + z + K t + w := by
    intro x y z w
    rw [BitVec.add_assoc (x + y + z), BitVec.add_comm w, ← BitVec.add_assoc]
  simp only [shaRound, SecureHash.round, hterm, hconstant, shaRot_eq _ (show 5 < 32 by decide),
    shaRot_eq _ (show 30 < 32 by decide), hsum]

/-- One of the four loops. -/
theorem forUp_rounds {M : Nat → Word} {W : Vector Word 80} (v : Working)
    (hW : ∀ t (ht : t < 80), W[t] = schedule M t) (term : Word → Word → Word → Word)
    (constant : Word) {lo hi : Nat} (hle : lo ≤ hi) (h80 : hi ≤ 80)
    (hterm : ∀ t, lo ≤ t → t < hi → ∀ B C D, term B C D = f t B C D)
    (hconstant : ∀ t, lo ≤ t → t < hi → constant = K t) :
    forUp lo hi (fun t _ _ => shaRound term constant W[t])
      (rounds M v lo) = rounds M v hi := by
  refine forUp_induct (P := fun i r => r = rounds M v i) hle rfl ?_
  rintro i hlo hhi _ rfl
  rw [shaRound_eq (hterm i hlo hhi) (hconstant i hlo hhi), hW, rounds]

/-- All rounds of a block. -/
theorem shaRounds_eq {M : Nat → Word} {W : Vector Word 80}
    (hW : ∀ t (ht : t < 80), W[t] = schedule M t) (v : Working) :
    shaRounds W v = rounds M v 80 := by
  have h₀ := forUp_rounds v hW (fun B C D => ((C ^^^ D) &&& B) ^^^ D) 0x5a827999
    (Nat.zero_le 20) (by decide)
    (fun t _ ht B C D => by rw [f, if_pos ht, ch_eq]) (fun t _ ht => by rw [K, if_pos ht])
  have h₁ := forUp_rounds v hW (fun B C D => B ^^^ C ^^^ D) 0x6ed9eba1
    (show 20 ≤ 40 by decide) (by decide)
    (fun t hlo ht B C D => by rw [f, if_neg (by omega), if_pos ht, parity])
    (fun t hlo ht => by rw [K, if_neg (by omega), if_pos ht])
  have h₂ := forUp_rounds v hW (fun B C D => (B &&& C) ||| (D &&& (B ||| C))) 0x8f1bbcdc
    (show 40 ≤ 60 by decide) (by decide)
    (fun t hlo ht B C D => by rw [f, if_neg (by omega), if_neg (by omega), if_pos ht, maj_eq])
    (fun t hlo ht => by rw [K, if_neg (by omega), if_neg (by omega), if_pos ht])
  have h₃ := forUp_rounds v hW (fun B C D => B ^^^ C ^^^ D) 0xca62c1d6
    (show 60 ≤ 80 by decide) (by decide)
    (fun t hlo ht B C D => by
      rw [f, if_neg (by omega), if_neg (by omega), if_neg (by omega), parity])
    (fun t hlo ht => by rw [K, if_neg (by omega), if_neg (by omega), if_neg (by omega)])
  rw [rounds] at h₀
  rw [shaRounds, h₀, h₁, h₂, h₃]

/-- The working variables are added to the hash word by word. -/
theorem zipWith_toVector (H : Vector Word 5) (r : Working) :
    Vector.zipWith (· + ·) H r.toVector
      = #v[H.get 0 + r.a, H.get 1 + r.b, H.get 2 + r.c, H.get 3 + r.d, H.get 4 + r.e] := by
  ext i hi
  obtain rfl | rfl | rfl | rfl | rfl : i = 0 ∨ i = 1 ∨ i = 2 ∨ i = 3 ∨ i = 4 := by omega
  all_goals simp [Working.toVector, Vector.get_eq_getElem]

/-- A block whose words stand in `W`. -/
theorem shaHashBlock_fst {block : List UInt8} {W : Vector Word 80} (H : Vector Word 5)
    (hW : ∀ t (ht : t < 16), W[t] = wordOf block t) :
    (shaHashBlock H W).1 = compress H block := by
  have hrounds := shaRounds_eq (shaExpand_eq hW) (.ofVector H)
  rw [compress, ← hrounds, zipWith_toVector]
  rfl

/-! ### One byte -/

/-- The bytes of the open block that belong to the word `j`. -/
def openWord (buf : List UInt8) (j : Nat) : List UInt8 := (buf.drop (4 * j)).take 4

/-- The words of `W` begin behind the open block, and end with its bytes. -/
def Words (W : Vector Word 80) (buf : List UInt8) : Prop :=
  ∀ j (hj : j < 16), W[j].toNat % 256 ^ (openWord buf j).length = beNat (openWord buf j)

/-- The length in bits, with the carry between its halves. -/
def size (ctx : ShaCtx) : Nat := ctx.sizeHi.toNat * 2 ^ 32 + ctx.sizeLo.toNat

/-- A context that has been given these bytes since `sha1Init`. -/
structure Holds (ctx : ShaCtx) (msg : List UInt8) : Prop where
  H : ctx.H = (absorb 64 compress (iv, []) msg).1
  words : Words ctx.W (absorb 64 compress (iv, []) msg).2
  lenW : ctx.lenW = msg.length % 64
  size : size ctx = 8 * msg.length % 2 ^ 64

/-- A byte that is added is the next one of its own open word. -/
theorem openWord_concat_same {buf : List UInt8} (b : UInt8) {j : Nat} (hj : j = buf.length / 4) :
    openWord (buf ++ [b]) j = openWord buf j ++ [b] := by
  have hlen := Nat.div_add_mod buf.length 4
  rw [openWord, openWord, List.drop_append_of_le_length (by omega), List.take_of_length_le,
    List.take_of_length_le]
  · rw [List.length_drop]
    omega
  · rw [List.length_append, List.length_drop, List.length_singleton]
    omega

/-- A byte that is added leaves the other open words. -/
theorem openWord_concat_ne {buf : List UInt8} (b : UInt8) {j : Nat} (hj : j ≠ buf.length / 4) :
    openWord (buf ++ [b]) j = openWord buf j := by
  have hlen := Nat.div_add_mod buf.length 4
  rcases Nat.lt_or_gt_of_ne hj with hlt | hgt
  · rw [openWord, openWord, List.drop_append_of_le_length (by omega),
      List.take_append_of_le_length (by rw [List.length_drop]; omega)]
  · rw [openWord, openWord, List.drop_eq_nil_of_le (by simp; omega),
      List.drop_eq_nil_of_le (by omega)]

/-- A byte goes into the word that `lenW` names. -/
theorem Words.concat {W : Vector Word 80} {buf : List UInt8} (h : Words W buf) (b : UInt8)
    (hlen : buf.length / 4 < 80) :
    Words (W.set (buf.length / 4) (W[buf.length / 4] <<< 8 ||| b.toBitVec.setWidth 32))
      (buf ++ [b]) := by
  intro j hj
  by_cases hsame : j = buf.length / 4
  · subst hsame
    have hopen : (openWord buf (buf.length / 4)).length < 4 := by
      rw [openWord, List.length_take, List.length_drop]
      omega
    rw [Vector.getElem_set_self, openWord_concat_same b rfl, List.length_append,
      List.length_singleton, toNat_shift_byte _ _ hopen, h _ hj, beNat_concat]
  · rw [Vector.getElem_set_ne _ _ (Ne.symm hsame), openWord_concat_ne b hsame]
    exact h j hj

/-- The words of a full block. -/
theorem Words.full {W : Vector Word 80} {block : List UInt8} (h : Words W block)
    (hlen : block.length = 64) (j : Nat) (hj : j < 16) : W[j] = wordOf block j := by
  have hopen : (openWord block j).length = 4 := by
    rw [openWord, List.length_take, List.length_drop]
    omega
  have hword := h j hj
  rw [hopen, Nat.mod_eq_of_lt (show W[j].toNat < 256 ^ 4 from W[j].isLt)] at hword
  rw [wordOf, ← openWord, ← hword, BitVec.ofNat_toNat, BitVec.setWidth_eq]

/-- Nothing is told of the words when no block is open. -/
theorem words_nil (W : Vector Word 80) : Words W [] := by
  intro j hj
  rw [openWord, List.drop_nil, List.take_nil, List.length_nil, Nat.pow_zero, Nat.mod_one]
  rfl

/-- Eight bits more, with the carry. -/
theorem size_add (hi lo : Word) :
    (hi + if lo + 8 < 8 then 1 else 0).toNat * 2 ^ 32 + (lo + 8).toNat
      = (hi.toNat * 2 ^ 32 + lo.toNat + 8) % 2 ^ 64 := by
  have hhi := hi.isLt
  have hlo := lo.isLt
  have hsum : (lo + 8).toNat = (lo.toNat + 8) % 2 ^ 32 := BitVec.toNat_add lo 8
  have hlt : lo + 8 < 8 ↔ (lo.toNat + 8) % 2 ^ 32 < 8 := by
    rw [BitVec.lt_def, hsum]
    rfl
  rw [hsum]
  split
  · rename_i hcarry
    have hone : (hi + 1).toNat = (hi.toNat + 1) % 2 ^ 32 := BitVec.toNat_add hi 1
    have hlow := hlt.mp hcarry
    omega
  · rename_i hcarry
    have hzero : (hi + 0).toNat = (hi.toNat + 0) % 2 ^ 32 := BitVec.toNat_add hi 0
    have hlow := mt hlt.mpr hcarry
    omega

/-- At the start the context holds the empty message. -/
theorem holds_init : Holds sha1Init [] where
  H := rfl
  words := words_nil _
  lenW := rfl
  size := rfl

/-- The byte that fills the block hashes it. -/
theorem sha1Byte_full {ctx : ShaCtx} (b : UInt8) (h : (ctx.lenW + 1) % 64 = 0)
    (hword : ctx.lenW / 4 < 80) :
    (sha1Byte ctx b).H = (shaHashBlock ctx.H
      (ctx.W.set (ctx.lenW / 4) (ctx.W[ctx.lenW / 4] <<< 8 ||| b.toBitVec.setWidth 32))).1 := by
  rw [sha1Byte, dif_pos h]

/-- A byte that does not fill the block joins its word. -/
theorem sha1Byte_open {ctx : ShaCtx} (b : UInt8) (h : (ctx.lenW + 1) % 64 ≠ 0)
    (hword : ctx.lenW / 4 < 80) :
    (sha1Byte ctx b).H = ctx.H ∧ (sha1Byte ctx b).W
      = ctx.W.set (ctx.lenW / 4) (ctx.W[ctx.lenW / 4] <<< 8 ||| b.toBitVec.setWidth 32) := by
  rw [sha1Byte, dif_neg h]
  exact ⟨rfl, rfl⟩

/-- A byte counts eight bits. -/
theorem sha1Byte_size (ctx : ShaCtx) (b : UInt8) :
    size (sha1Byte ctx b) = (size ctx + 8) % 2 ^ 64 := by
  rw [size, size, ← size_add]
  simp only [sha1Byte]
  split <;> rfl

/-- One byte more. -/
theorem holds_byte {ctx : ShaCtx} {msg : List UInt8} (h : Holds ctx msg) (b : UInt8) :
    Holds (sha1Byte ctx b) (msg ++ [b]) := by
  have hlt := ctx.lenW_lt
  have hlen : (sha1Byte ctx b).lenW = (msg ++ [b]).length % 64 := by
    rw [sha1Byte_lenW, h.lenW, List.length_append, List.length_singleton]
    omega
  have hsize : size (sha1Byte ctx b) = 8 * (msg ++ [b]).length % 2 ^ 64 := by
    rw [sha1Byte_size, h.size, List.length_append, List.length_singleton]
    omega
  have hopen : ctx.lenW = (absorb 64 compress (iv, []) msg).2.length := by
    rw [h.lenW, absorb_snd_length (by decide)]
  have hwords := h.words.concat b (by omega)
  simp only [← hopen] at hwords
  by_cases hfull : (ctx.lenW + 1) % 64 = 0
  · have hfeed : absorb 64 compress (iv, []) (msg ++ [b]) = (compress ctx.H
        ((absorb 64 compress (iv, []) msg).2 ++ [b]), []) := by
      rw [absorb_snoc, feed, if_pos (by omega), h.H]
    have hblock := shaHashBlock_fst ctx.H (hwords.full (by
      rw [List.length_append, List.length_singleton, ← hopen]
      omega))
    refine ⟨?_, ?_, hlen, hsize⟩
    · rw [hfeed, sha1Byte_full b hfull (by omega), hblock]
    · rw [hfeed]
      exact words_nil _
  · have hfeed : absorb 64 compress (iv, []) (msg ++ [b])
        = (ctx.H, (absorb 64 compress (iv, []) msg).2 ++ [b]) := by
      rw [absorb_snoc, feed, if_neg (by omega), h.H]
    obtain ⟨hH, hW⟩ := sha1Byte_open b hfull (by omega)
    refine ⟨?_, ?_, hlen, hsize⟩
    · rw [hfeed, hH]
    · rw [hfeed, hW]
      exact hwords

/-- Updating with a text appends it to the message. -/
theorem holds_update {ctx : ShaCtx} {msg : List UInt8} (h : Holds ctx msg) (data : List UInt8) :
    Holds (sha1Update ctx data) (msg ++ data) := by
  induction data using List.reverseRecOn with
  | nil =>
    rw [List.append_nil]
    exact h
  | append_singleton data b ih =>
    rw [sha1Update, List.foldl_append, ← List.append_assoc]
    exact holds_byte ih b

/-- A message that is given in pieces. -/
theorem holds_pieces (pieces : List (List UInt8)) :
    Holds (pieces.foldl sha1Update sha1Init) pieces.flatten := by
  induction pieces using List.reverseRecOn with
  | nil => exact holds_init
  | append_singleton pieces piece ih =>
    rw [List.foldl_append, List.flatten_append, List.flatten_singleton]
    exact holds_update ih piece

/-! ### The end -/

/-- The zeros that `sha1Zeros` appends. -/
theorem holds_zeros (ctx : ShaCtx) : ∀ {msg : List UInt8}, Holds ctx msg →
    Holds (sha1Zeros ctx) (msg ++ List.replicate ((120 - ctx.lenW) % 64) 0) := by
  induction ctx using sha1Zeros.induct with
  | case1 ctx hend =>
    intro msg h
    rw [sha1Zeros, if_pos hend, hend, List.replicate_zero, List.append_nil]
    exact h
  | case2 ctx hmore ih =>
    intro msg h
    have hlt := ctx.lenW_lt
    have hnext : (sha1Update ctx [0]).lenW = (ctx.lenW + 1) % 64 := sha1Byte_lenW ctx 0
    have hcount : (120 - ctx.lenW) % 64 = (120 - (ctx.lenW + 1) % 64) % 64 + 1 := by omega
    have hzeros := ih (holds_update h [0])
    rw [hnext, List.append_assoc, List.singleton_append, ← List.replicate_succ, ← hcount] at hzeros
    rw [sha1Zeros, if_neg hmore]
    exact hzeros

/-- One byte of a size. -/
theorem ofBitVec_shift (x : Word) (k : Nat) :
    UInt8.ofBitVec (((x >>> (8 * k)) &&& 255).setWidth 8) = UInt8.ofNat (x.toNat / 256 ^ k) := by
  rw [← UInt8.toNat_inj, UInt8.toNat_ofBitVec, BitVec.toNat_setWidth, BitVec.toNat_and,
    BitVec.toNat_ushiftRight, Nat.shiftRight_eq_div_pow, Nat.pow_mul, UInt8.toNat_ofNat']
  show (x.toNat / 256 ^ k &&& 2 ^ 8 - 1) % 2 ^ 8 = _
  rw [Nat.and_two_pow_sub_one_eq_mod, Nat.mod_mod]

/-- The bytes of the size are those of a big-endian number. -/
theorem sizeBytes_eq (x : Word) : sizeBytes x = beBytes 4 x.toNat := by
  have h₀ := ofBitVec_shift x 0
  have h₁ := ofBitVec_shift x 1
  have h₂ := ofBitVec_shift x 2
  have h₃ := ofBitVec_shift x 3
  simp only [Nat.mul_zero, Nat.mul_one, Nat.reduceMul, Nat.pow_zero, Nat.div_one, Nat.pow_one]
    at h₀ h₁ h₂ h₃
  simp only [sizeBytes, h₀, h₁, h₂, h₃, beBytes, leBytes, List.reverse_cons, List.reverse_nil,
    List.nil_append, List.cons_append, Nat.div_div_eq_div_mul]
  rfl

/-- The length field. -/
theorem padlen_eq (ctx : ShaCtx) {n : Nat} (h : size ctx = n % 2 ^ 64) :
    sizeBytes ctx.sizeHi ++ sizeBytes ctx.sizeLo = beBytes 8 n := by
  have hhi := ctx.sizeHi.isLt
  have hlo := ctx.sizeLo.isLt
  rw [size] at h
  have hupper : ctx.sizeHi.toNat = n / 256 ^ 4 % 256 ^ 4 := by omega
  have hlower : ctx.sizeLo.toNat = n % 256 ^ 4 := by omega
  rw [sizeBytes_eq, sizeBytes_eq, hupper, hlower, beBytes_mod, beBytes_mod, ← beBytes_add 4 4]

/-- The highest byte of a word that has been shifted by `m` bytes. -/
theorem shift_byte (x : Word) {m : Nat} (hm : m < 4) :
    (((x <<< (8 * m)) >>> 24).setWidth 8) = (x >>> (24 - 8 * m)).setWidth 8 := by
  ext i hi
  simp only [BitVec.getElem_setWidth, BitVec.getLsbD_ushiftRight, BitVec.getLsbD_shiftLeft]
  have hlow : ¬24 + i < 8 * m := by omega
  have hbit : 24 + i - 8 * m = 24 - 8 * m + i := by omega
  simp [hlow, hbit, show 24 + i < 32 by omega]

/-- The bytes that have been written, and the words, which are shifted by them. -/
structure Written (H : Vector Word 5) (i : Nat) (s : Vector UInt8 20 × Vector Word 5) : Prop where
  hashout : ∀ j (_ : j < i) (hj : j < 20), s.1[j] = (digest H)[j]
  H : ∀ q (hq : q < 5), s.2[q] = H[q] <<< (8 * min 4 (i - 4 * q))

/-- Before the output nothing is written. -/
theorem written_start (H : Vector Word 5) : Written H 0 (.replicate 20 0, H) := by
  refine ⟨fun j hj => absurd hj (Nat.not_lt_zero j), fun q hq => ?_⟩
  rw [Nat.zero_sub, Nat.min_zero, Nat.mul_zero, BitVec.shiftLeft_zero]

/-- A round of the output writes the next byte. -/
theorem Written.round {H : Vector Word 5} {i : Nat} (hi : i < 20)
    {s : Vector UInt8 20 × Vector Word 5} (h : Written H i s) :
    Written H (i + 1) (sha1OutputRound i hi s) := by
  have hmod : min 4 (i - 4 * (i / 4)) = i % 4 := by omega
  refine ⟨fun j hlt hj => ?_, fun q hq => ?_⟩
  · rw [sha1OutputRound]
    rcases Nat.lt_succ_iff_lt_or_eq.mp hlt with hold | rfl
    · rw [Vector.getElem_set_ne _ _ (by omega)]
      exact h.hashout j hold hj
    · rw [Vector.getElem_set_self, h.H _ (by omega), hmod, shift_byte _ (by omega)]
      simp [digest]
  · rw [sha1OutputRound]
    by_cases hsame : i / 4 = q
    · subst hsame
      have hnext : 8 * min 4 (i + 1 - 4 * (i / 4)) = 8 * min 4 (i - 4 * (i / 4)) + 8 := by omega
      rw [Vector.getElem_set_self, h.H _ hq, hnext, BitVec.shiftLeft_add]
    · have hkeep : min 4 (i + 1 - 4 * q) = min 4 (i - 4 * q) := by omega
      rw [Vector.getElem_set_ne _ _ hsame, h.H q hq, hkeep]

/-- The bytes of the chaining value. -/
theorem sha1Output_eq (H : Vector Word 5) : sha1Output H = digest H := by
  have hloop := forUp_induct (P := Written H) (Nat.zero_le 20) (written_start H)
    fun i _ hi s hs => Written.round hi hs
  ext j hj
  exact congrArg UInt8.toNat (hloop.hashout j hj hj)

/-- The end of a message that the context holds. -/
theorem sha1Final_eq {ctx : ShaCtx} {msg : List UInt8} (h : Holds ctx msg) :
    sha1Final ctx = (sha1 msg, sha1Init) := by
  have hone := holds_update h [0x80]
  have hzeros := holds_zeros _ hone
  have hlen : (sha1Update ctx [0x80]).lenW = (msg.length + 1) % 64 := by
    rw [hone.lenW, List.length_append, List.length_singleton]
  have hcount : (120 - (msg.length + 1) % 64) % 64 = zeros msg.length := by
    rw [zeros]
    omega
  rw [hlen, hcount] at hzeros
  have hend := holds_update hzeros (sizeBytes ctx.sizeHi ++ sizeBytes ctx.sizeLo)
  rw [padlen_eq ctx h.size, ← pad] at hend
  rw [sha1Final, padlen_eq ctx h.size, hend.H, absorb_fst (by decide), sha1Output_eq]
  rfl

/-- The hash of a message, however it is given, is the one of the standard, and the context can be
used for the next message. -/
theorem sha1_of_pieces (pieces : List (List UInt8)) :
    sha1Final (pieces.foldl sha1Update sha1Init) = (sha1 pieces.flatten, sha1Init) :=
  sha1Final_eq (holds_pieces pieces)

end LearnGit.Proofs.Git
