import LearnGit.Git.DiffDelta
import LearnGit.Lib.Bytes

/-!
# `LearnGit.Proofs.Git.Delta`: reading a delta

What `patch_delta` and `count_delta` make of a size and of the commands as `diff_delta` writes
them. `Says src cmds dst copied added` is what a piece of a delta means, whatever is behind it:
pieces with a meaning can be put together (`Says.append`), and there is one lemma for each command.
`count_delta` follows `patch_delta` round by round on any delta (`countLoop_of_patchLoop`).
-/

set_option autoImplicit false

namespace LearnGit.Proofs.Git.Delta

open LearnGit.Git.Delta LearnGit.Lib

/-! ### Bits and bytes -/

/-- Setting the high bits behind the low ones adds them. -/
theorem or_shift {x y k : Nat} (h : x < 2 ^ k) : x ||| y <<< k = x + y * 2 ^ k := by
  rw [Nat.or_comm, ← Nat.shiftLeft_add_eq_or_of_lt h, Nat.shiftLeft_eq, Nat.add_comm]

/-- Masking with 0xff leaves the low byte. -/
theorem and_ff (v : Nat) : v &&& 0xff = v % 256 := Nat.and_two_pow_sub_one_eq_mod v 8

/-- A byte of a size that is not its last one. -/
theorem more_bits (n : Nat) : (UInt8.ofNat n ||| 0x80) &&& 0x80 ≠ 0
    ∧ ((UInt8.ofNat n ||| 0x80) &&& 0x7f).toNat = n % 128 := by
  have htable : ∀ b : UInt8, (b ||| 0x80) &&& 0x80 ≠ 0
      ∧ ((b ||| 0x80) &&& 0x7f).toNat = b.toNat % 128 := byte_forall (by decide +kernel)
  have hbyte := htable (UInt8.ofNat n)
  rw [UInt8.toNat_ofNat', Nat.mod_mod_of_dvd n (by decide)] at hbyte
  exact hbyte

/-- The last byte of a size. -/
theorem last_bits {n : Nat} (h : n < 128) :
    UInt8.ofNat n &&& 0x80 = 0 ∧ (UInt8.ofNat n &&& 0x7f).toNat = n := by
  have htable : ∀ i : Fin 128, UInt8.ofNat i.val &&& 0x80 = 0
      ∧ (UInt8.ofNat i.val &&& 0x7f).toNat = i.val := by decide +kernel
  exact htable ⟨n, h⟩

/-! ### Sizes -/

/-- A size begins with a byte that has its low seven bits. -/
theorem hdrBytes_eq_cons (n : Nat) : ∃ c cs, hdrBytes n = c :: cs
    ∧ (c &&& 0x7f).toNat = n % 128 := by
  rw [hdrBytes]
  split
  · rename_i hlast
    rw [Nat.shiftRight_eq_div_pow] at hlast
    have hlt : n < 128 := by omega
    exact ⟨_, _, rfl, by rw [(last_bits hlt).2, Nat.mod_eq_of_lt hlt]⟩
  · exact ⟨_, _, rfl, (more_bits n).2⟩

/-- The bytes of a size behind its first one, which is in the size already. -/
theorem hdrLoop_hdrBytes (rest : List UInt8) (n : Nat) :
    ∀ (size i : Nat) {c : UInt8} {cs : List UInt8}, hdrBytes n = c :: cs → size < 2 ^ i →
      n * 2 ^ i < 2 ^ 31 →
      hdrLoop (size ||| (c &&& 0x7f).toNat <<< i) (i + 7) c (cs ++ rest)
        = .ok (size + n * 2 ^ i, rest) := by
  induction n using hdrBytes.induct with
  | case1 n hlast =>
    intro size i c cs hbytes hsize hn
    rw [hdrBytes, dif_pos hlast] at hbytes
    rw [Nat.shiftRight_eq_div_pow] at hlast
    obtain ⟨hbit, hval⟩ := last_bits (n := n) (by omega)
    cases hbytes
    rw [hdrLoop.eq_def, if_pos hbit, hval, or_shift hsize, List.nil_append]
  | case2 n hmore ih =>
    intro size i c cs hbytes hsize hn
    rw [hdrBytes, dif_neg hmore] at hbytes
    rw [Nat.shiftRight_eq_div_pow] at hmore ih
    rw [Nat.shiftRight_eq_div_pow] at hbytes
    obtain ⟨hbit, hval⟩ := more_bits n
    obtain ⟨c', cs', hrest, hval'⟩ := hdrBytes_eq_cons (n / 2 ^ 7)
    rw [hrest] at hbytes
    cases hbytes
    have hpow : 2 ^ (i + 7) = 128 * 2 ^ i := by rw [Nat.pow_add, Nat.mul_comm]
    have hsplit : n * 2 ^ i = n % 128 * 2 ^ i + n / 2 ^ 7 * 2 ^ (i + 7) := by
      rw [hpow, ← Nat.mul_assoc, ← Nat.add_mul]
      congr 1
      omega
    have hi : i + 7 < 31 := by
      have hone : 1 * 2 ^ (i + 7) ≤ n / 2 ^ 7 * 2 ^ (i + 7) := Nat.mul_le_mul_right _ (by omega)
      exact (Nat.pow_lt_pow_iff_right (by decide : 1 < 2)).mp (by omega)
    have hpart : (c' &&& 0x7f).toNat <<< (i + 7) < 2 ^ 31 := by
      have hle : n / 2 ^ 7 % 128 * 2 ^ (i + 7) ≤ n / 2 ^ 7 * 2 ^ (i + 7) :=
        Nat.mul_le_mul_right _ (Nat.mod_le _ _)
      rw [hval', Nat.shiftLeft_eq]
      omega
    have hlow : n % 128 * 2 ^ i ≤ 127 * 2 ^ i := Nat.mul_le_mul_right _ (by omega)
    rw [hdrLoop.eq_def, if_neg hbit, List.cons_append]
    dsimp only
    rw [if_neg (by omega), hval, or_shift hsize, ih _ _ hrest (by omega) (by omega), Nat.add_assoc,
      ← hsplit]

/-- A size, read back. -/
theorem getDeltaHdrSize_hdrBytes {n : Nat} (hn : n < 2 ^ 31) (rest : List UInt8) :
    getDeltaHdrSize (hdrBytes n ++ rest) = .ok (n, rest) := by
  obtain ⟨c, cs, hbytes, hval⟩ := hdrBytes_eq_cons n
  have hloop := hdrLoop_hdrBytes rest n 0 0 hbytes (by decide) (by omega)
  rw [Nat.shiftLeft_zero, Nat.zero_or, Nat.pow_zero, Nat.mul_one, Nat.zero_add,
    Nat.zero_add] at hloop
  rw [hbytes]
  exact hloop

/-! ### Commands -/

/-- A result goes on to what follows. -/
theorem ok_bind {α β : Type} (a : α) (f : α → Except Fault β) :
    (Except.ok a >>= f) = f a := rfl

/-- A round that returns is followed by the next. -/
theorem patchLoop_of_round {src : List UInt8} {size : Nat} {cmd : UInt8}
    {data out out' rest : List UInt8} (h : patchRound src size cmd data out = .ok (out', rest)) :
    patchLoop src size (cmd :: data) out = patchLoop src size rest out' := by
  rw [patchLoop]
  split
  · rename_i hround
    rw [h] at hround
    cases hround
  · rename_i hround
    rw [h] at hround
    cases hround
    rfl

/-- A round that returns is followed by the next. -/
theorem countLoop_of_round {cmd : UInt8} {data rest : List UInt8} {c c' : Counts}
    (h : countRound cmd data c = .ok (c', some rest)) :
    countLoop (cmd :: data) c = countLoop rest c' := by
  rw [countLoop]
  split
  · rename_i hround
    rw [h] at hround
    cases hround
  · rename_i hround
    rw [h] at hround
    cases hround
  · rename_i hround
    rw [h] at hround
    cases hround
    rfl

/-- A piece of a delta writes these bytes, of which `copied` are from the old buffer. -/
structure Says (src cmds dst : List UInt8) (copied : Nat) : Prop where
  copied_le : copied ≤ dst.length
  patch : ∀ (size : Nat) (rest out : List UInt8), out.length + dst.length ≤ size →
    patchLoop src size (cmds ++ rest) out = patchLoop src size rest (out ++ dst)
  count : ∀ (rest : List UInt8) (c : Counts), countLoop (cmds ++ rest) c
    = countLoop rest ⟨c.copiedFromSource + copied, c.addedLiteral + (dst.length - copied),
        c.out + dst.length⟩

/-- No commands write nothing. -/
theorem Says.nil (src : List UInt8) : Says src [] [] 0 where
  copied_le := Nat.le_refl 0
  patch := by
    intro size rest out _
    rw [List.nil_append, List.append_nil]
  count := by
    intro rest c
    rfl

/-- Two pieces of a delta write their bytes one behind the other. -/
theorem Says.append {src cmds cmds' dst dst' : List UInt8} {copied copied' : Nat}
    (h : Says src cmds dst copied) (h' : Says src cmds' dst' copied') :
    Says src (cmds ++ cmds') (dst ++ dst') (copied + copied') where
  copied_le := by
    rw [List.length_append]
    exact Nat.add_le_add h.copied_le h'.copied_le
  patch := by
    intro size rest out hroom
    rw [List.length_append] at hroom
    rw [List.append_assoc, h.patch _ _ _ (by omega), h'.patch _ _ _ (by rw [List.length_append]; omega),
      List.append_assoc]
  count := by
    intro rest c
    have hle := h.copied_le
    have hle' := h'.copied_le
    rw [List.append_assoc, h.count, h'.count, List.length_append]
    congr 2
    all_goals
      dsimp only
      omega

/-- Bytes that are inserted. -/
theorem says_insert (src : List UInt8) {lit : List UInt8} (h : lit.length < 128) :
    Says src (UInt8.ofNat lit.length :: lit) lit 0 where
  copied_le := Nat.zero_le _
  patch := by
    intro size rest out hroom
    have hcmd : (UInt8.ofNat lit.length).toNat = lit.length := by
      rw [UInt8.toNat_ofNat']
      omega
    have hround : patchRound src size (UInt8.ofNat lit.length) (lit ++ rest) out
        = .ok (out ++ lit, rest) := by
      rw [patchRound, if_pos (last_bits h).1, hcmd, sliceOf, if_pos (by simp), List.drop_zero,
        List.take_left, List.drop_left]
      show (append size out lit >>= fun out => Except.ok (out, rest)) = _
      rw [append, if_pos hroom]
      rfl
    exact patchLoop_of_round hround
  count := by
    intro rest c
    have hcmd : (UInt8.ofNat lit.length).toNat = lit.length := by
      rw [UInt8.toNat_ofNat']
      omega
    show countLoop (UInt8.ofNat lit.length :: (lit ++ rest)) c = _
    refine countLoop_of_round ?_
    rw [countRound, if_pos (last_bits h).1, hcmd, if_neg (by simp), List.drop_left]
    rfl

/-! ### Copies -/

/-- The flags of a command, which tell which of its arguments are there. -/
def flagged (b₀ b₁ b₂ b₃ b₄ b₅ : Bool) : UInt8 :=
  (0x80 : UInt8) ||| (if b₀ then 0x01 else 0) ||| (if b₁ then 0x02 else 0)
    ||| (if b₂ then 0x04 else 0) ||| (if b₃ then 0x08 else 0) ||| (if b₄ then 0x10 else 0)
    ||| (if b₅ then 0x20 else 0)

/-- The flags of a copy command are read back, whatever they are. -/
theorem flagged_table (b₀ b₁ b₂ b₃ b₄ b₅ : Bool) :
    flagged b₀ b₁ b₂ b₃ b₄ b₅ &&& 0x80 ≠ 0 ∧ flagged b₀ b₁ b₂ b₃ b₄ b₅ &&& 0x40 = 0
      ∧ (flagged b₀ b₁ b₂ b₃ b₄ b₅ &&& 0x01 = 0 ↔ b₀ = false)
      ∧ (flagged b₀ b₁ b₂ b₃ b₄ b₅ &&& 0x02 = 0 ↔ b₁ = false)
      ∧ (flagged b₀ b₁ b₂ b₃ b₄ b₅ &&& 0x04 = 0 ↔ b₂ = false)
      ∧ (flagged b₀ b₁ b₂ b₃ b₄ b₅ &&& 0x08 = 0 ↔ b₃ = false)
      ∧ (flagged b₀ b₁ b₂ b₃ b₄ b₅ &&& 0x10 = 0 ↔ b₄ = false)
      ∧ (flagged b₀ b₁ b₂ b₃ b₄ b₅ &&& 0x20 = 0 ↔ b₅ = false) := by
  revert b₀ b₁ b₂ b₃ b₄ b₅
  decide +kernel

/-- A byte shifted by at most 16 stays an `int`. -/
theorem byte_shift_lt (v : Nat) {k : Nat} (hk : k ≤ 16) : v % 256 * 2 ^ k < 2 ^ 31 := by
  have hpow : 2 ^ k ≤ 2 ^ 16 := Nat.pow_le_pow_right (by decide) hk
  calc v % 256 * 2 ^ k ≤ 255 * 2 ^ 16 := Nat.mul_le_mul (by omega) hpow
    _ < 2 ^ 31 := by decide

/-- An argument is read back, and its byte is 0 where there is none. -/
theorem orArg_argBytes {cmd flag : UInt8} {v acc shift : Nat} (rest : List UInt8)
    (hflag : cmd &&& flag = 0 ↔ decide (v &&& 0xff ≠ 0) = false) (hacc : acc < 2 ^ shift)
    (hv : v % 256 * 2 ^ shift < 2 ^ 31) :
    orArg cmd flag shift (acc, argBytes v ++ rest) = .ok (acc + v % 256 * 2 ^ shift, rest) := by
  by_cases hbyte : v &&& 0xff ≠ 0
  · have hset : cmd &&& flag ≠ 0 := by
      rw [Ne, hflag]
      simp [hbyte]
    have hval : (UInt8.ofNat v).toNat = v % 256 := UInt8.toNat_ofNat'
    rw [orArg, if_neg hset, argBytes, if_pos hbyte, List.singleton_append]
    dsimp only
    rw [hval, if_neg (by rw [Nat.shiftLeft_eq]; omega), or_shift hacc]
  · have hclear : cmd &&& flag = 0 := by
      rw [hflag]
      simp [hbyte]
    have hzero : v % 256 = 0 := by rwa [Ne, Decidable.not_not, and_ff] at hbyte
    rw [orArg, if_pos hclear, argBytes, if_neg hbyte, hzero, Nat.zero_mul, Nat.add_zero,
      List.nil_append]

/-- The arguments of a copy, read back. -/
theorem readCopy_copyCommand {moff msize : Nat} (hoff : moff < 2 ^ 31) (hpos : 0 < msize)
    (hsize : msize ≤ 0x10000) : ∃ cmd args, copyCommand moff msize = cmd :: args
      ∧ cmd &&& 0x80 ≠ 0 ∧ cmd &&& 0x40 = 0
      ∧ ∀ rest, readCopy cmd (args ++ rest) = .ok ⟨moff, msize, rest⟩ := by
  have htable := flagged_table (moff &&& 0xff ≠ 0) (moff >>> 8 &&& 0xff ≠ 0)
    (moff >>> 16 &&& 0xff ≠ 0) (moff >>> 24 &&& 0xff ≠ 0) (msize &&& 0xff ≠ 0)
    (msize >>> 8 &&& 0xff ≠ 0)
  obtain ⟨hcopy, hsrc, h₀, h₁, h₂, h₃, h₄, h₅⟩ := htable
  have hcmd : copyCommand moff msize = flagged (moff &&& 0xff ≠ 0) (moff >>> 8 &&& 0xff ≠ 0)
      (moff >>> 16 &&& 0xff ≠ 0) (moff >>> 24 &&& 0xff ≠ 0) (msize &&& 0xff ≠ 0)
      (msize >>> 8 &&& 0xff ≠ 0) :: (argBytes moff ++ argBytes (moff >>> 8)
        ++ argBytes (moff >>> 16) ++ argBytes (moff >>> 24) ++ argBytes msize
        ++ argBytes (msize >>> 8)) := by
    simp [copyCommand, flagged, argFlag]
  refine ⟨_, _, hcmd, hcopy, hsrc, ?_⟩
  intro rest
  have hoff₀ : 0 + moff % 256 * 2 ^ 0 < 2 ^ 8 := by omega
  have hoff₁ : 0 + moff % 256 * 2 ^ 0 + (moff >>> 8) % 256 * 2 ^ 8 < 2 ^ 16 := by
    omega
  have hoff₂ : 0 + moff % 256 * 2 ^ 0 + (moff >>> 8) % 256 * 2 ^ 8
      + (moff >>> 16) % 256 * 2 ^ 16 < 2 ^ 24 := by
    omega
  have hlast : (moff >>> 24) % 256 * 2 ^ 24 < 2 ^ 31 := by
    rw [Nat.shiftRight_eq_div_pow]
    omega
  have hsize₀ : 0 + msize % 256 * 2 ^ 0 < 2 ^ 8 := by omega
  have hall : 0 + moff % 256 * 2 ^ 0 + (moff >>> 8) % 256 * 2 ^ 8
      + (moff >>> 16) % 256 * 2 ^ 16 + (moff >>> 24) % 256 * 2 ^ 24 = moff := by
    simp only [Nat.shiftRight_eq_div_pow]
    omega
  have hsum : 0 + msize % 256 * 2 ^ 0 + (msize >>> 8) % 256 * 2 ^ 8 = msize % 0x10000 := by
    simp only [Nat.shiftRight_eq_div_pow]
    omega
  have hzero : (if msize % 0x10000 = 0 then 0x10000 else msize % 0x10000) = msize := by
    split <;> omega
  rw [readCopy]
  simp only [List.append_assoc]
  rw [orArg_argBytes _ h₀ (by decide) (byte_shift_lt _ (by decide)), ok_bind,
    orArg_argBytes _ h₁ hoff₀ (byte_shift_lt _ (by decide)), ok_bind,
    orArg_argBytes _ h₂ hoff₁ (byte_shift_lt _ (by decide)), ok_bind,
    orArg_argBytes _ h₃ hoff₂ hlast, ok_bind, hall]
  dsimp only
  rw [orArg_argBytes _ h₄ (by decide) (byte_shift_lt _ (by decide)), ok_bind,
    orArg_argBytes _ h₅ hsize₀ (byte_shift_lt _ (by decide)), ok_bind, hsum]
  dsimp only
  rw [hzero]

/-- A copy from the old buffer. -/
theorem says_copy {src : List UInt8} {moff msize : Nat} (hsrc : src.length < 2 ^ 31)
    (hpos : 0 < msize) (hsize : msize ≤ 0x10000) (hin : moff + msize ≤ src.length) :
    Says src (copyCommand moff msize) ((src.drop moff).take msize) msize := by
  obtain ⟨cmd, args, hcmd, hcopy, hfrom, hread⟩ :=
    readCopy_copyCommand (show moff < 2 ^ 31 by omega) hpos hsize
  have hlen : ((src.drop moff).take msize).length = msize := by
    rw [List.length_take, List.length_drop]
    omega
  rw [hcmd]
  refine ⟨hlen.ge, ?_, ?_⟩
  · intro size rest out hroom
    show patchLoop src size (cmd :: (args ++ rest)) out = _
    refine patchLoop_of_round ?_
    rw [patchRound, if_neg hcopy, hread, ok_bind, if_pos hfrom, sliceOf, if_pos hin, ok_bind,
      append, if_pos hroom, ok_bind]
  · intro rest c
    show countLoop (cmd :: (args ++ rest)) c = _
    refine countLoop_of_round ?_
    rw [countRound, if_neg hcopy, hread, ok_bind, if_pos hfrom, hlen, Nat.sub_self, Nat.add_zero]

/-! ### Counting -/

/-- A copy that is made is inside of the buffer. -/
theorem sliceOf_eq_ok {buf bytes : List UInt8} {off n : Nat} (h : sliceOf buf off n = .ok bytes) :
    off + n ≤ buf.length ∧ bytes = (buf.drop off).take n := by
  rw [sliceOf] at h
  split at h
  · rename_i hle
    cases h
    exact ⟨hle, rfl⟩
  · cases h

/-- An output that is made fits. -/
theorem append_eq_ok {size : Nat} {out bytes out' : List UInt8}
    (h : append size out bytes = .ok out') :
    out.length + bytes.length ≤ size ∧ out' = out ++ bytes := by
  rw [append] at h
  split at h
  · rename_i hle
    cases h
    exact ⟨hle, rfl⟩
  · cases h

/-- A round that `patch_delta` goes through, `count_delta` goes through, and it counts no more bytes
than are written. -/
theorem countRound_of_patchRound {src data out out' rest : List UInt8} {size : Nat} {cmd : UInt8}
    (c : Counts) (h : patchRound src size cmd data out = .ok (out', rest)) :
    ∃ c', countRound cmd data c = .ok (c', some rest)
      ∧ c'.out + out.length = c.out + out'.length
      ∧ c'.copiedFromSource + c'.addedLiteral + c.out
        ≤ c.copiedFromSource + c.addedLiteral + c'.out := by
  rw [patchRound] at h
  rw [countRound]
  by_cases hinsert : cmd &&& 0x80 = 0
  · rw [if_pos hinsert] at h ⊢
    obtain ⟨bytes, hbytes, h⟩ := bind_eq_ok h
    obtain ⟨appended, happend, h⟩ := bind_eq_ok h
    obtain ⟨hle, rfl⟩ := sliceOf_eq_ok hbytes
    obtain ⟨-, rfl⟩ := append_eq_ok happend
    cases h
    rw [Nat.zero_add] at hle
    rw [if_neg (Nat.not_lt.mpr hle)]
    refine ⟨_, rfl, ?_, ?_⟩
    · rw [List.length_append, List.length_take, List.length_drop]
      dsimp only
      omega
    · dsimp only
      omega
  · rw [if_neg hinsert] at h ⊢
    obtain ⟨copy, hcopy, h⟩ := bind_eq_ok h
    obtain ⟨bytes, hbytes, h⟩ := bind_eq_ok h
    obtain ⟨appended, happend, h⟩ := bind_eq_ok h
    obtain ⟨hle, rfl⟩ := sliceOf_eq_ok hbytes
    obtain ⟨-, rfl⟩ := append_eq_ok happend
    cases h
    rw [hcopy, ok_bind]
    refine ⟨_, rfl, ?_, ?_⟩
    · rw [List.length_append, List.length_take, List.length_drop]
      dsimp only
      omega
    · dsimp only
      split <;> omega

/-- The loops, by induction on their rounds. -/
theorem countLoop_of_patchLoop {src : List UInt8} {size : Nat} (data out : List UInt8) :
    ∀ (c : Counts) {dst : List UInt8}, patchLoop src size data out = .ok dst →
      ∃ c', countLoop data c = .ok (c', true) ∧ c'.out + out.length = c.out + dst.length
        ∧ c'.copiedFromSource + c'.addedLiteral + c.out
          ≤ c.copiedFromSource + c.addedLiteral + c'.out := by
  induction data, out using patchLoop.induct src size with
  | case1 out =>
    intro c dst h
    rw [patchLoop] at h
    cases h
    exact ⟨c, by rw [countLoop], rfl, Nat.le_refl _⟩
  | case2 out cmd data fault hround =>
    intro c dst h
    rw [patchLoop] at h
    split at h
    · cases h
    · rename_i hok
      rw [hround] at hok
      cases hok
  | case3 out cmd data out' rest hround ih =>
    intro c dst h
    rw [patchLoop_of_round hround] at h
    obtain ⟨c', hcount, hout, hle⟩ := countRound_of_patchRound c hround
    obtain ⟨c'', hloop, hout', hle'⟩ := ih c' h
    refine ⟨c'', ?_, by omega, by omega⟩
    rw [countLoop_of_round hcount, hloop]

/-- `count_delta` accepts every delta that `patch_delta` accepts, and what it counts is not more
than the bytes of the result. -/
theorem countDelta_of_patchDelta {src delta dst : List UInt8}
    (h : patchDelta src delta = .ok (some dst)) :
    ∃ copied added, countDelta delta = .ok (some (copied, added)) ∧ copied + added ≤ dst.length := by
  rw [patchDelta] at h
  rw [countDelta]
  split at h
  · cases h
  · rename_i hmin
    rw [if_neg hmin]
    obtain ⟨⟨srcSize, data⟩, hsrc, h⟩ := bind_eq_ok h
    dsimp only at h
    split at h
    · cases h
    · obtain ⟨⟨size, data'⟩, hdst, h⟩ := bind_eq_ok h
      obtain ⟨out, hloop, h⟩ := bind_eq_ok h
      obtain ⟨c, hcount, hout, hle⟩ := countLoop_of_patchLoop data' [] ⟨0, 0, 0⟩ hloop
      split at h
      · cases h
      · rename_i hsize
        cases h
        rw [hsrc, ok_bind]
        dsimp only
        rw [hdst, ok_bind]
        dsimp only
        rw [hcount, ok_bind]
        dsimp only at hout hle ⊢
        rw [List.length_nil] at hout
        rw [if_neg]
        · exact ⟨_, _, rfl, by omega⟩
        · rintro (hfalse | hne)
          · cases hfalse
          · omega

/-- A delta that inserts two bytes. -/
theorem countDelta_of_patchDelta_insert : ∃ copied added,
    countDelta [1, 2, 2, 7, 8] = .ok (some (copied, added)) ∧ copied + added ≤ 2 := by
  refine countDelta_of_patchDelta (?_ : patchDelta [5] [1, 2, 2, 7, 8] = .ok (some [7, 8]))
  have hround : patchRound [5] 2 2 [7, 8] [] = .ok ([7, 8], []) := by decide
  show (patchLoop [5] 2 [2, 7, 8] [] >>= fun out =>
    Except.ok (if out.length ≠ 2 then none else some out)) = _
  rw [patchLoop_of_round hround, patchLoop]
  rfl

end LearnGit.Proofs.Git.Delta
