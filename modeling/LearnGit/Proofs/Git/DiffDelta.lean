import LearnGit.Proofs.Git.Delta

/-!
# `LearnGit.Proofs.Git.DiffDelta`: a delta makes the new buffer again

The loop of `diff_delta` keeps that `out` is the sizes, a piece that says the bytes that are behind,
and bytes that are being inserted, with room for the next command (`Parts`). What the search returns
is a match, whatever the checksums are (`search_match`), so that the delta is right; the checksums
say that it is no shorter than any match at a block of the old buffer (`search_longest`).
-/

set_option autoImplicit false

namespace LearnGit.Proofs.Git.Delta

open LearnGit.Git.Delta LearnGit.Lib

/-! ### Matches -/

/-- A match is no longer than either text. -/
theorem matchLength_le (as bs : List UInt8) :
    matchLength as bs ≤ as.length ∧ matchLength as bs ≤ bs.length := by
  induction as, bs using matchLength.induct with
  | case1 a as bs ih =>
    rw [matchLength, if_pos rfl, List.length_cons, List.length_cons]
    omega
  | case2 a as b bs hne =>
    rw [matchLength, if_neg hne]
    exact ⟨Nat.zero_le _, Nat.zero_le _⟩
  | case3 as bs hnot =>
    rw [matchLength]
    · exact ⟨Nat.zero_le _, Nat.zero_le _⟩
    · exact hnot

/-- The bytes that two buffers have in common. -/
theorem take_matchLength (as bs : List UInt8) :
    ∀ {n : Nat}, n ≤ matchLength as bs → as.take n = bs.take n := by
  induction as, bs using matchLength.induct with
  | case1 a as bs ih =>
    intro n hn
    rw [matchLength, if_pos rfl] at hn
    cases n with
    | zero => rfl
    | succ n => rw [List.take_succ_cons, List.take_succ_cons, ih (by omega)]
  | case2 a as b bs hne =>
    intro n hn
    rw [matchLength, if_neg hne, Nat.le_zero] at hn
    rw [hn, List.take_zero, List.take_zero]
  | case3 as bs hnot =>
    intro n hn
    rw [matchLength, Nat.le_zero] at hn
    · rw [hn, List.take_zero, List.take_zero]
    · exact hnot

/-- What the search returns: nothing, or a match of the bytes ahead. -/
def IsMatch (bdf : BdFile) (data : List UInt8) (m : Nat × Nat) : Prop :=
  m.2 ≤ 0x10000 ∧ (m.2 = 0 ∨ m.2 ≤ matchLength (bdf.data.drop m.1) data)

/-- The search along a chain keeps a match, and is at the end as long as any of the chain. -/
theorem searchLoop_spec (bdf : BdFile) (fp : BitVec 32) (data : List UInt8)
    (chain : List BdRecord) : ∀ (moff msize : Nat), IsMatch bdf data (moff, msize) →
      IsMatch bdf data (searchLoop bdf fp data chain moff msize)
        ∧ msize ≤ (searchLoop bdf fp data chain moff msize).2
        ∧ ∀ brec ∈ chain, brec.fp = fp →
          min 0x10000 (matchLength (bdf.data.drop brec.ptr) data)
            ≤ (searchLoop bdf fp data chain moff msize).2 := by
  induction chain with
  | nil =>
    intro moff msize h
    exact ⟨h, Nat.le_refl _, fun brec hmem => absurd hmem List.not_mem_nil⟩
  | cons brec chain ih =>
    intro moff msize h
    rw [searchLoop]
    split
    · rename_i hfp
      dsimp only
      split
      · rename_i hlonger
        split
        · rename_i hlong
          refine ⟨⟨Nat.le_refl _, .inr hlong⟩, h.1, fun brec' _ _ => Nat.min_le_left _ _⟩
        · rename_i hshort
          obtain ⟨hmatch, hle, hall⟩ := ih brec.ptr
            (matchLength (bdf.data.drop brec.ptr) data) ⟨by omega, .inr (Nat.le_refl _)⟩
          refine ⟨hmatch, by omega, fun brec' hmem hfp' => ?_⟩
          rcases List.mem_cons.mp hmem with rfl | hmem
          · exact Nat.le_trans (Nat.min_le_right _ _) hle
          · exact hall brec' hmem hfp'
      · rename_i hshorter
        obtain ⟨hmatch, hle, hall⟩ := ih _ _ h
        refine ⟨hmatch, hle, fun brec' hmem hfp' => ?_⟩
        rcases List.mem_cons.mp hmem with rfl | hmem
        · exact Nat.le_trans (Nat.min_le_right _ _) (by omega)
        · exact hall brec' hmem hfp'
    · rename_i hfp
      obtain ⟨hmatch, hle, hall⟩ := ih _ _ h
      refine ⟨hmatch, hle, fun brec' hmem hfp' => ?_⟩
      rcases List.mem_cons.mp hmem with rfl | hmem
      · exact absurd hfp' hfp
      · exact hall brec' hmem hfp'

/-- What the search finds is a match. -/
theorem search_match (bdf : BdFile) (data : List UInt8) : IsMatch bdf data (search bdf data) :=
  (searchLoop_spec bdf _ data _ 0 0 ⟨Nat.zero_le _, .inl rfl⟩).1

/-! ### The length of a command -/

/-- An argument takes a byte unless it is zero. -/
theorem argBytes_length (v : Nat) : (argBytes v).length = hasByte v := by
  rw [argBytes, hasByte]
  split <;> rfl

/-- A copy command has the length that `copyopSize` says. -/
theorem copyCommand_length (moff msize : Nat) :
    (copyCommand moff msize).length = copyopSize moff msize := by
  simp only [copyCommand, copyopSize, List.length_cons, List.length_append, argBytes_length]

/-- An argument takes one byte at most. -/
theorem hasByte_le (v : Nat) : hasByte v ≤ 1 := by
  rw [hasByte]
  split <;> decide

/-- A copy command takes seven bytes at most. -/
theorem copyopSize_le (o s : Nat) : copyopSize o s ≤ 7 := by
  have h₀ := hasByte_le o
  have h₁ := hasByte_le (o >>> 8)
  have h₂ := hasByte_le (o >>> 16)
  have h₃ := hasByte_le (o >>> 24)
  have h₄ := hasByte_le s
  have h₅ := hasByte_le (s >>> 8)
  rw [copyopSize]
  omega

/-! ### The table -/

/-- A block that is in the table stays in it. -/
theorem mem_prepareRound {buf : List UInt8} {fphbits k i : Nat} {fphash : Nat → List BdRecord}
    {brec : BdRecord} (h : brec ∈ fphash i) : brec ∈ prepareRound buf fphbits k fphash i := by
  rw [prepareRound]
  by_cases hi : i = hash (adler32 0 ((buf.drop (k * BLK_SIZE)).take BLK_SIZE)) fphbits
  · subst hi
    rw [Function.update_self]
    exact List.mem_cons_of_mem _ h
  · rwa [Function.update_of_ne hi]

/-- A block that is in a chain stays there. -/
theorem mem_prepareLoop_of_mem {buf : List UInt8} {fphbits i : Nat} {brec : BdRecord} (k : Nat) :
    ∀ {fphash : Nat → List BdRecord}, brec ∈ fphash i →
      brec ∈ prepareLoop buf fphbits k fphash i := by
  induction k with
  | zero => exact mem_prepareRound
  | succ k ih => exact fun h => ih (mem_prepareRound h)

/-- The blocks up to the first one are in the chains of their checksums. -/
theorem mem_prepareLoop (buf : List UInt8) (fphbits : Nat) {j : Nat} (k : Nat) :
    ∀ (fphash : Nat → List BdRecord), j ≤ k →
      (⟨adler32 0 ((buf.drop (j * BLK_SIZE)).take BLK_SIZE), j * BLK_SIZE⟩ : BdRecord)
        ∈ prepareLoop buf fphbits k fphash
          (hash (adler32 0 ((buf.drop (j * BLK_SIZE)).take BLK_SIZE)) fphbits) := by
  have hround : ∀ (fphash : Nat → List BdRecord),
      (⟨adler32 0 ((buf.drop (j * BLK_SIZE)).take BLK_SIZE), j * BLK_SIZE⟩ : BdRecord)
        ∈ prepareRound buf fphbits j fphash
          (hash (adler32 0 ((buf.drop (j * BLK_SIZE)).take BLK_SIZE)) fphbits) := by
    intro fphash
    rw [prepareRound, Function.update_self]
    exact List.mem_cons_self
  induction k with
  | zero =>
    intro fphash hj
    obtain rfl := Nat.le_zero.mp hj
    exact hround fphash
  | succ k ih =>
    intro fphash hj
    rcases Nat.lt_or_eq_of_le hj with hlt | rfl
    · exact ih _ (Nat.le_of_lt_succ hlt)
    · exact mem_prepareLoop_of_mem k (hround fphash)

/-- The search finds a match that is no shorter than any one of 16 bytes or more at a block of the
old buffer, up to the most that a command can copy. -/
theorem search_block {src data : List UInt8} {k : Nat}
    (h : BLK_SIZE ≤ matchLength (src.drop (k * BLK_SIZE)) data) :
    min 0x10000 (matchLength (src.drop (k * BLK_SIZE)) data) ≤ (search (deltaPrepare src) data).2
      ∧ ((search (deltaPrepare src) data).2 = 0 ∨ (search (deltaPrepare src) data).2
        ≤ matchLength (src.drop (search (deltaPrepare src) data).1) data) := by
  have hblock : (src.drop (k * BLK_SIZE)).take BLK_SIZE = data.take BLK_SIZE :=
    take_matchLength _ _ h
  have hlen := (matchLength_le (src.drop (k * BLK_SIZE)) data).1
  have hlast : k ≤ lastBlock src.length := by
    have hfits : k * 16 + 16 ≤ src.length := by
      rw [List.length_drop] at hlen
      change 16 ≤ _ at h
      change _ ≤ src.length - k * 16 at hlen
      omega
    show k ≤ if src.length / 16 * 16 = src.length then src.length / 16 - 1 else src.length / 16
    by_cases hwhole : src.length / 16 * 16 = src.length
    · rw [if_pos hwhole]
      omega
    · rw [if_neg hwhole]
      omega
  have hmem := mem_prepareLoop src (hashbits (src.length / BLK_SIZE + 1)) _ (fun _ => []) hlast
  rw [hblock] at hmem
  obtain ⟨hmatch, -, hall⟩ := searchLoop_spec (deltaPrepare src)
    (adler32 0 (data.take BLK_SIZE)) data _ 0 0 ⟨Nat.zero_le _, .inl rfl⟩
  exact ⟨hall _ hmem rfl, hmatch.2⟩

/-- Such a match is longer than its command. -/
theorem search_long {src data : List UInt8} {k : Nat}
    (h : BLK_SIZE ≤ matchLength (src.drop (k * BLK_SIZE)) data) :
    (search (deltaPrepare src) data).2 ≠ 0 ∧
      copyopSize (search (deltaPrepare src) data).1 (search (deltaPrepare src) data).2
        ≤ (search (deltaPrepare src) data).2 := by
  have hlong : 16 ≤ (search (deltaPrepare src) data).2 := by
    refine Nat.le_trans ?_ (search_block h).1
    rw [Nat.le_min]
    exact ⟨by decide, h⟩
  exact ⟨by omega, Nat.le_trans (copyopSize_le _ _) (by omega)⟩

/-- The match that is copied is no shorter than any match of 16 bytes or more at a block of the old
buffer, up to the most that a command can copy, and it is copied. -/
theorem search_longest (src data : List UInt8) (k : Nat)
    (h : BLK_SIZE ≤ matchLength (src.drop (k * BLK_SIZE)) data) :
    min 0x10000 (matchLength (src.drop (k * BLK_SIZE)) data) ≤ (search (deltaPrepare src) data).2
      ∧ (search (deltaPrepare src) data).2
        ≤ matchLength (src.drop (search (deltaPrepare src) data).1) data
      ∧ copyopSize (search (deltaPrepare src) data).1 (search (deltaPrepare src) data).2
        ≤ (search (deltaPrepare src) data).2 := by
  obtain ⟨hmin, hmatch⟩ := search_block h
  obtain ⟨hpos, hsize⟩ := search_long h
  exact ⟨hmin, hmatch.resolve_left hpos, hsize⟩

/-- A buffer against itself. -/
theorem search_longest_self : 16 ≤ (search (deltaPrepare (List.replicate 16 5))
    (List.replicate 16 5)).2 :=
  Nat.le_trans (by decide) (search_longest (List.replicate 16 5) (List.replicate 16 5) 0
    (by decide)).1

/-- A round copies where 16 or more of the bytes ahead are those at a block of the old buffer. -/
theorem diffRound_of_match {src : List UInt8} (junk : UInt8) (s : DiffState) (b : UInt8)
    (data : List UInt8) {k : Nat}
    (h : BLK_SIZE ≤ matchLength (src.drop (k * BLK_SIZE)) s.data) :
    diffRound (deltaPrepare src) junk s b data
      = copyRound s (search (deltaPrepare src) s.data).1 (search (deltaPrepare src) s.data).2 := by
  obtain ⟨hpos, hsize⟩ := search_long h
  rw [diffRound, if_neg (not_or.mpr ⟨hpos, Nat.not_lt.mpr hsize⟩)]

/-! ### The loop -/

/-- The sizes at the start of a delta. -/
def sizes (src dst : List UInt8) : List UInt8 := hdrBytes src.length ++ hdrBytes dst.length

/-- `out` is the sizes, commands that say what is behind, and the bytes that are being inserted. -/
structure Parts (src dst : List UInt8) (junk : UInt8) (s : DiffState) (done lit : List UInt8) :
    Prop where
  dst_eq : dst = done ++ lit ++ s.data
  inscnt_eq : s.inscnt = lit.length
  inscnt_lt : s.inscnt < 0x7f
  out_eq : ∃ body copied, Says src body done copied
    ∧ s.out = sizes src dst ++ body ++ if lit = [] then [] else junk :: lit
  outsize : 8192 ≤ s.outsize
  length_le : s.out.length ≤ s.outsize
  growth : s.out.length + 2 * s.data.length ≤ 10 + 2 * dst.length

/-- Closing an insert stores its count and adds no byte. -/
theorem closeInsert_length (out : List UInt8) (inscnt : Nat) :
    (closeInsert out inscnt).length = out.length := by
  rw [closeInsert]
  split
  · rw [List.length_set]
  · rfl

/-- The number in front of the inserted bytes. -/
theorem closeInsert_eq {front lit : List UInt8} {junk : UInt8} (hlit : lit ≠ []) :
    closeInsert (front ++ junk :: lit) lit.length
      = front ++ UInt8.ofNat lit.length :: lit := by
  have hpos := List.length_pos_iff.mpr hlit
  have hplace : (front ++ junk :: lit).length - lit.length - 1 = front.length := by
    rw [List.length_append, List.length_cons]
    omega
  rw [closeInsert, if_pos (by omega), hplace, List.set_append_right _ _ (Nat.le_refl _),
    Nat.sub_self, List.set_cons_zero]

/-- The commands when the bytes that are being inserted are closed. -/
theorem Parts.closed {src dst done lit : List UInt8} {junk : UInt8} {s : DiffState}
    (h : Parts src dst junk s done lit) :
    ∃ body copied, Says src body (done ++ lit) copied
      ∧ closeInsert s.out s.inscnt = sizes src dst ++ body := by
  obtain ⟨body, copied, hsays, hout⟩ := h.out_eq
  have hlt := h.inscnt_lt
  rw [h.inscnt_eq] at hlt ⊢
  by_cases hlit : lit = []
  · rw [hlit, if_pos rfl, List.append_nil] at hout
    rw [hlit, List.append_nil, closeInsert, if_neg (by simp), hout]
    exact ⟨body, copied, hsays, rfl⟩
  · rw [if_neg hlit] at hout
    rw [hout, closeInsert_eq hlit, List.append_assoc]
    exact ⟨_, _, hsays.append (says_insert src (by omega)), rfl⟩

/-- A byte that is inserted. -/
theorem insertRound_parts {src dst done lit data : List UInt8} {junk b : UInt8} {s : DiffState}
    (h : Parts src dst junk s done lit) (hroom : s.out.length + 8 ≤ s.outsize)
    (hdata : s.data = b :: data) :
    ∃ s' done' lit', insertRound junk s b data = .ok s' ∧ Parts src dst junk s' done' lit' := by
  obtain ⟨body, copied, hsays, hout⟩ := h.out_eq
  have hlt := h.inscnt_lt
  have hgrowth := h.growth
  have hlen : s.data.length = data.length + 1 := by
    rw [hdata]
    rfl
  have hemit : emit s (if s.inscnt = 0 then [junk, b] else [b])
      = .ok (sizes src dst ++ body ++ junk :: (lit ++ [b])) := by
    have hsmall : (if s.inscnt = 0 then [junk, b] else [b]).length ≤ 2 := by
      split <;> simp
    rw [emit, if_pos (by omega), h.inscnt_eq, hout]
    by_cases hlit : lit = []
    · rw [hlit, if_pos rfl, if_pos List.length_nil, List.append_nil, List.nil_append]
    · rw [if_neg hlit, if_neg (by simpa using hlit), List.append_assoc, List.cons_append]
  have hlong : (sizes src dst ++ body ++ junk :: (lit ++ [b])).length ≤ s.out.length + 2 := by
    rw [hout]
    by_cases hlit : lit = []
    · simp [hlit]
      omega
    · simp [hlit]
      omega
  have hdst : dst = done ++ (lit ++ [b]) ++ data := by
    rw [List.append_assoc, List.append_assoc, List.singleton_append, ← hdata, ← List.append_assoc]
    exact h.dst_eq
  have hcount : s.inscnt + 1 = (lit ++ [b]).length := by
    rw [h.inscnt_eq, List.length_append, List.length_singleton]
  have hout' : ∃ body copied, Says src body done copied
      ∧ sizes src dst ++ body ++ junk :: (lit ++ [b]) = sizes src dst ++ body
        ++ if lit ++ [b] = [] then [] else junk :: (lit ++ [b]) :=
    ⟨body, copied, hsays, by rw [if_neg (by simp)]⟩
  rw [insertRound, hemit, ok_bind]
  dsimp only
  by_cases hfull : s.inscnt + 1 = 0x7f
  · refine ⟨_, done ++ (lit ++ [b]), [], if_pos hfull, ?_⟩
    rw [hcount] at hfull ⊢
    refine ⟨by rw [List.append_nil]; exact hdst, rfl, Nat.succ_pos 0x7e, ?_, h.outsize, ?_, ?_⟩
    · refine ⟨_, _, hsays.append (says_insert src (by omega)), ?_⟩
      rw [closeInsert_eq (by simp), List.append_assoc (sizes src dst)]
      exact (List.append_nil _).symm
    · rw [closeInsert_length]
      exact Nat.le_trans hlong (by show _ ≤ s.outsize; omega)
    · rw [closeInsert_length]
      show (sizes src dst ++ body ++ junk :: (lit ++ [b])).length + 2 * data.length ≤ _
      omega
  · refine ⟨_, done, lit ++ [b], if_neg hfull, hdst, hcount, ?_, ⟨body, copied, hsays, ?_⟩,
      h.outsize, ?_, ?_⟩
    · show s.inscnt + 1 < 0x7f
      omega
    · rw [if_neg (by simp)]
    · exact Nat.le_trans hlong (by show _ ≤ s.outsize; omega)
    · show (sizes src dst ++ body ++ junk :: (lit ++ [b])).length + 2 * data.length ≤ _
      omega

/-- A copy. -/
theorem copyRound_parts {src dst done lit : List UInt8} {junk : UInt8} {s : DiffState} {m : Nat × Nat}
    (hsrc : src.length < 2 ^ 31) (h : Parts src dst junk s done lit)
    (hroom : s.out.length + 8 ≤ s.outsize) (hmax : m.2 ≤ 0x10000) (hpos : 0 < m.2)
    (hmatch : m.2 ≤ matchLength (src.drop m.1) s.data) (hsmall : copyopSize m.1 m.2 ≤ m.2) :
    ∃ s' done' lit', copyRound s m.1 m.2 = .ok s' ∧ Parts src dst junk s' done' lit' := by
  obtain ⟨body, copied, hsays, hclosed⟩ := h.closed
  have hgrowth := h.growth
  have hlens := matchLength_le (src.drop m.1) s.data
  have htake := take_matchLength (src.drop m.1) s.data hmatch
  have hsize := copyopSize_le m.1 m.2
  have hlen := closeInsert_length s.out s.inscnt
  rw [List.length_drop] at hlens
  have hfits : (closeInsert s.out s.inscnt).length + (copyCommand m.1 m.2).length ≤ s.outsize := by
    rw [copyCommand_length]
    omega
  rw [copyRound, emit, if_pos hfits, ok_bind]
  refine ⟨_, done ++ lit ++ s.data.take m.2, [], rfl, ?_, rfl, Nat.succ_pos 0x7e, ?_,
    h.outsize, ?_, ?_⟩
  · rw [List.append_nil, List.append_assoc, List.take_append_drop]
    exact h.dst_eq
  · rw [← htake, hclosed]
    refine ⟨_, _, hsays.append (says_copy hsrc hpos hmax (by omega)), ?_⟩
    rw [if_pos rfl, List.append_nil, List.append_assoc]
  · rw [List.length_append]
    exact hfits
  · rw [List.length_append, copyCommand_length]
    show (closeInsert s.out s.inscnt).length + copyopSize m.1 m.2 + 2 * (s.data.drop m.2).length ≤ _
    rw [List.length_drop]
    omega

/-- A round returns, with the room that the loop keeps, and the output stays its parts. -/
theorem diffRound_parts {src dst done lit data : List UInt8} {junk b : UInt8} {s : DiffState}
    (hsrc : src.length < 2 ^ 31) (h : Parts src dst junk s done lit)
    (hroom : s.out.length + 8 ≤ s.outsize) (hdata : s.data = b :: data) :
    ∃ s' done' lit', diffRound (deltaPrepare src) junk s b data = .ok s'
      ∧ Parts src dst junk s' done' lit' := by
  have hmatch := search_match (deltaPrepare src) s.data
  rw [diffRound]
  split
  · exact insertRound_parts h hroom hdata
  · rename_i hcopy
    rw [not_or, Nat.not_lt] at hcopy
    obtain ⟨hpos, hsmall⟩ := hcopy
    exact copyRound_parts hsrc h hroom hmatch.1 (Nat.pos_of_ne_zero hpos)
      (hmatch.2.resolve_left hpos) hsmall

/-- There is room for the next round. -/
theorem grow_parts {src dst done lit : List UInt8} {junk : UInt8} {s s' : DiffState}
    (h : Parts src dst junk s done lit) (hgrow : grow s = .ok s') :
    s'.out = s.out ∧ s'.data = s.data ∧ Parts src dst junk s' done lit
      ∧ s'.out.length + 8 ≤ s'.outsize := by
  have hlarge := h.outsize
  have hle := h.length_le
  rw [grow] at hgrow
  split at hgrow
  · split at hgrow
    · cases hgrow
    · cases hgrow
      refine ⟨rfl, rfl, ⟨h.dst_eq, h.inscnt_eq, h.inscnt_lt, h.out_eq, ?_, ?_, h.growth⟩, ?_⟩
      all_goals
        dsimp only
        omega
  · cases hgrow
    exact ⟨rfl, rfl, h, by omega⟩

/-- The size of `out` is an `int` when the new buffer is not too large. -/
theorem grow_ok {src dst done lit : List UInt8} {junk : UInt8} {s : DiffState}
    (h : Parts src dst junk s done lit) (hdst : dst.length ≤ 2 ^ 28) : ∃ s', grow s = .ok s' := by
  have hlarge := h.outsize
  have hgrowth := h.growth
  rw [grow]
  by_cases hfull : s.out.length > s.outsize - 8
  · rw [if_pos hfull, if_neg (by omega)]
    exact ⟨_, rfl⟩
  · rw [if_neg hfull]
    exact ⟨_, rfl⟩

/-- What `diff_delta` returns: commands that say the new buffer, or nothing when they are longer
than they may be. -/
def Returns (src dst : List UInt8) (maxSize : Nat) : Except Fault (Option (List UInt8)) → Prop
  | .error fault => fault = .overflow ∧ 2 ^ 28 < dst.length
  | .ok none => maxSize ≠ 0
  | .ok (some delta) => (maxSize ≠ 0 → delta.length ≤ maxSize)
      ∧ ∃ body copied, Says src body dst copied ∧ delta = sizes src dst ++ body

/-- A round that returns is followed by the test for the size, the growth and the next round. -/
theorem diffLoop_of_round {bdf : BdFile} {junk b : UInt8} {maxSize : Nat} {s s' : DiffState}
    {data : List UInt8} (hdata : s.data = b :: data) (hround : diffRound bdf junk s b data = .ok s') :
    diffLoop bdf junk maxSize s
      = if maxSize ≠ 0 ∧ s'.out.length > maxSize then .ok none
        else
          match grow s' with
          | .error fault => .error fault
          | .ok s'' => diffLoop bdf junk maxSize s'' := by
  rw [diffLoop]
  split
  · rename_i hnil
    rw [hdata] at hnil
    cases hnil
  · rename_i b' data' hdata'
    rw [hdata] at hdata'
    cases hdata'
    split
    · rename_i herror
      rw [hround] at herror
      cases herror
    · rename_i hok
      rw [hround] at hok
      cases hok
      congr 1
      split
      · rename_i hgrow
        rw [hgrow]
      · rename_i hgrow
        rw [hgrow]

/-- Only the size of `out` can be too large. -/
theorem grow_fault {s : DiffState} {fault : Fault} (h : grow s = .error fault) :
    fault = .overflow := by
  rw [grow] at h
  split at h
  · split at h
    · cases h
      rfl
    · cases h
  · cases h

/-- The loop, by induction on its rounds. -/
theorem diffLoop_returns {src dst : List UInt8} {junk : UInt8} (maxSize : Nat)
    (hsrc : src.length < 2 ^ 31) (s : DiffState) : ∀ {done lit : List UInt8},
    Parts src dst junk s done lit → s.out.length + 8 ≤ s.outsize →
    (s.data = [] → maxSize ≠ 0 → s.out.length ≤ maxSize) →
    Returns src dst maxSize (diffLoop (deltaPrepare src) junk maxSize s) := by
  induction s using diffLoop.induct (deltaPrepare src) junk maxSize with
  | case1 s hdata =>
    intro done lit h hroom hmax
    obtain ⟨body, copied, hsays, hclosed⟩ := h.closed
    have hdst : dst = done ++ lit := by
      rw [h.dst_eq, hdata, List.append_nil]
    rw [diffLoop]
    split
    · refine ⟨fun hne => ?_, body, copied, by rwa [hdst], hclosed⟩
      rw [closeInsert_length]
      exact hmax hdata hne
    · rename_i hcons
      rw [hdata] at hcons
      cases hcons
  | case2 s b data hdata fault hround =>
    intro done lit h hroom hmax
    obtain ⟨s', done', lit', hok, -⟩ := diffRound_parts hsrc h hroom hdata
    rw [hround] at hok
    cases hok
  | case3 s b data hdata s' hround hlong =>
    intro done lit h hroom hmax
    rw [diffLoop_of_round hdata hround, if_pos hlong]
    exact hlong.1
  | case4 s b data hdata s' hround hshort fault hgrow =>
    intro done lit h hroom hmax
    obtain ⟨s₁, done', lit', hok, h'⟩ := diffRound_parts hsrc h hroom hdata
    rw [hround] at hok
    cases hok
    rw [diffLoop_of_round hdata hround, if_neg hshort, hgrow]
    refine ⟨grow_fault hgrow, ?_⟩
    by_contra hsmall
    obtain ⟨s'', hok⟩ := grow_ok h' (Nat.not_lt.mp hsmall)
    rw [hgrow] at hok
    cases hok
  | case5 s b data hdata s' hround hshort s'' hgrow ih =>
    intro done lit h hroom hmax
    obtain ⟨s₁, done', lit', hok, h'⟩ := diffRound_parts hsrc h hroom hdata
    rw [hround] at hok
    cases hok
    rw [diffLoop_of_round hdata hround, if_neg hshort, hgrow]
    obtain ⟨hout, hdata', h'', hroom''⟩ := grow_parts h' hgrow
    refine ih h'' hroom'' fun _ hne => ?_
    rw [hout]
    by_contra hlong
    exact hshort ⟨hne, Nat.not_le.mp hlong⟩

/-! ### The whole delta -/

/-- A size below a power of 128 takes no more bytes than its exponent. -/
theorem hdrBytes_length_le {n k : Nat} (hn : n < 128 ^ (k + 1)) : (hdrBytes n).length ≤ k + 1 := by
  induction k generalizing n with
  | zero =>
    rw [hdrBytes, dif_pos (by rw [Nat.shiftRight_eq_div_pow]; omega)]
    exact Nat.le_refl 1
  | succ k ih =>
    rw [hdrBytes]
    split
    · exact Nat.succ_pos _
    · have hdiv : n >>> 7 < 128 ^ (k + 1) := by
        rw [Nat.shiftRight_eq_div_pow]
        rw [Nat.pow_succ] at hn
        omega
      exact Nat.succ_le_succ (ih hdiv)

/-- A size takes a byte at least. -/
theorem hdrBytes_length_pos (n : Nat) : 0 < (hdrBytes n).length := by
  obtain ⟨c, cs, hbytes, -⟩ := hdrBytes_eq_cons n
  rw [hbytes]
  exact Nat.succ_pos _

/-- At the end of the delta an argument is absent. -/
theorem orArg_nil {cmd flag : UInt8} {shift acc : Nat} {arg : Nat × List UInt8}
    (h : orArg cmd flag shift (acc, []) = .ok arg) : arg = (acc, []) := by
  rw [orArg] at h
  split at h
  · cases h
    rfl
  · cases h

/-- A copy without arguments. -/
theorem readCopy_nil {cmd : UInt8} {copy : Copy} (h : readCopy cmd [] = .ok copy) :
    copy.cpSize = 0x10000 := by
  obtain ⟨off₀, h₀, h⟩ := bind_eq_ok h
  obtain rfl := orArg_nil h₀
  obtain ⟨off₁, h₁, h⟩ := bind_eq_ok h
  obtain rfl := orArg_nil h₁
  obtain ⟨off₂, h₂, h⟩ := bind_eq_ok h
  obtain rfl := orArg_nil h₂
  obtain ⟨off₃, h₃, h⟩ := bind_eq_ok h
  obtain rfl := orArg_nil h₃
  obtain ⟨size₀, h₄, h⟩ := bind_eq_ok h
  obtain rfl := orArg_nil h₄
  obtain ⟨size₁, h₅, h⟩ := bind_eq_ok h
  obtain rfl := orArg_nil h₅
  cases h
  rfl

/-- A command alone inserts nothing, or copies all that a command can copy. -/
theorem Says.length_of_single {src dst : List UInt8} {cmd : UInt8} {copied : Nat}
    (h : Says src [cmd] dst copied) : dst = [] ∨ dst.length = 0x10000 := by
  have hrun : patchLoop src dst.length [cmd] [] = .ok dst := by
    have hpatch := h.patch dst.length [] [] (by simp)
    rw [List.append_nil, List.nil_append] at hpatch
    rw [hpatch, patchLoop]
  cases hround : patchRound src dst.length cmd [] [] with
  | error fault =>
    rw [patchLoop] at hrun
    split at hrun
    · cases hrun
    · rename_i hok
      rw [hround] at hok
      cases hok
  | ok behind =>
    obtain ⟨out, rest⟩ := behind
    have hrest : rest = [] := List.length_eq_zero_iff.mp (Nat.le_zero.mp (patchRound_length hround))
    rw [patchLoop_of_round hround, hrest, patchLoop] at hrun
    cases hrun
    rw [patchRound] at hround
    split at hround
    · obtain ⟨bytes, hbytes, hround⟩ := bind_eq_ok hround
      obtain ⟨appended, happend, hround⟩ := bind_eq_ok hround
      obtain ⟨-, rfl⟩ := sliceOf_eq_ok hbytes
      obtain ⟨-, rfl⟩ := append_eq_ok happend
      injection hround with hround
      injection hround with hdst
      exact .inl (by rw [← hdst]; simp)
    · obtain ⟨copy, hcopy, hround⟩ := bind_eq_ok hround
      obtain ⟨bytes, hbytes, hround⟩ := bind_eq_ok hround
      obtain ⟨appended, happend, hround⟩ := bind_eq_ok hround
      obtain ⟨hle, rfl⟩ := sliceOf_eq_ok hbytes
      obtain ⟨-, rfl⟩ := append_eq_ok happend
      injection hround with hround
      injection hround with hdst
      right
      rw [← hdst, List.nil_append, List.length_take, List.length_drop, ← readCopy_nil hcopy]
      omega

/-- No delta is shorter than `DELTA_SIZE_MIN`. -/
theorem Says.sizes_length {src dst body : List UInt8} {copied : Nat} (hdst : dst ≠ [])
    (h : Says src body dst copied) : DELTA_SIZE_MIN ≤ (sizes src dst ++ body).length := by
  have hsrc := hdrBytes_length_pos src.length
  have hnew := hdrBytes_length_pos dst.length
  rw [DELTA_SIZE_MIN, sizes, List.length_append, List.length_append]
  match body, h with
  | [], h =>
    have hrun := h.patch dst.length [] [] (by simp)
    rw [List.append_nil, List.nil_append, patchLoop, patchLoop] at hrun
    injection hrun with hrun
    exact absurd hrun.symm hdst
  | [cmd], h =>
    have hlong : (hdrBytes dst.length).length = 3 := by
      rw [h.length_of_single.resolve_left hdst]
      simp [hdrBytes]
    rw [List.length_singleton]
    omega
  | _ :: _ :: body, _ =>
    rw [List.length_cons, List.length_cons]
    omega

/-- The delta of commands that say the new buffer. -/
theorem Says.patchDelta {src dst body : List UInt8} {copied : Nat} (hsrc : src.length < 2 ^ 31)
    (hlen : dst.length < 2 ^ 31) (hdst : dst ≠ []) (h : Says src body dst copied) :
    patchDelta src (sizes src dst ++ body) = .ok (some dst)
      ∧ countDelta (sizes src dst ++ body) = .ok (some (copied, dst.length - copied)) := by
  have hmin := h.sizes_length hdst
  have hdata : sizes src dst ++ body = hdrBytes src.length ++ (hdrBytes dst.length ++ body) :=
    List.append_assoc _ _ _
  constructor
  · have hrun := h.patch dst.length [] [] (by simp)
    rw [List.append_nil, List.nil_append, patchLoop.eq_1] at hrun
    rw [Git.Delta.patchDelta, if_neg (Nat.not_lt.mpr hmin), hdata, getDeltaHdrSize_hdrBytes hsrc,
      ok_bind]
    dsimp only
    rw [if_neg (by simp), getDeltaHdrSize_hdrBytes hlen, ok_bind]
    dsimp only
    rw [hrun, ok_bind, if_neg (by simp)]
  · have hrun := h.count [] ⟨0, 0, 0⟩
    rw [List.append_nil, countLoop.eq_1] at hrun
    rw [Git.Delta.countDelta, if_neg (Nat.not_lt.mpr hmin), hdata, getDeltaHdrSize_hdrBytes hsrc,
      ok_bind]
    dsimp only
    rw [getDeltaHdrSize_hdrBytes hlen, ok_bind]
    dsimp only
    rw [hrun, ok_bind]
    simp

/-- `patch_delta` makes the new buffer of the old one and a delta of `diff_delta`, and
`count_delta` counts its bytes. There is a delta unless a buffer is empty, the delta is longer than
it may be or an `int` overflows, and no byte outside a buffer is read or written. -/
theorem delta_round_trip (junk : UInt8) (src dst : List UInt8) (maxSize : Nat) :
    match diffDelta junk src dst maxSize with
    | .error fault => fault = .overflow ∧ (2 ^ 31 ≤ src.length ∨ 2 ^ 28 < dst.length)
    | .ok none => src = [] ∨ dst = [] ∨ maxSize ≠ 0
    | .ok (some delta) => patchDelta src delta = .ok (some dst)
        ∧ (maxSize ≠ 0 → delta.length ≤ maxSize)
        ∧ ∃ copied ≤ dst.length, countDelta delta = .ok (some (copied, dst.length - copied)) := by
  rw [diffDelta]
  by_cases hlarge : 2 ^ 31 ≤ src.length ∨ 2 ^ 31 ≤ dst.length
  · rw [if_pos hlarge]
    exact ⟨rfl, hlarge.imp id fun h => by omega⟩
  rw [if_neg hlarge]
  by_cases hempty : src = [] ∨ dst = []
  · rw [if_pos hempty]
    exact hempty.imp id .inl
  rw [if_neg hempty]
  rw [not_or, Nat.not_le, Nat.not_le] at hlarge
  rw [not_or] at hempty
  obtain ⟨hsrc, hlen⟩ := hlarge
  have hheader : (sizes src dst).length ≤ 10 := by
    have h₀ := hdrBytes_length_le (n := src.length) (k := 4) (by omega)
    have h₁ := hdrBytes_length_le (n := dst.length) (k := 4) (by omega)
    rw [sizes, List.length_append]
    omega
  have hemit : emit ⟨dst, [], 8192, 0⟩ (hdrBytes src.length ++ hdrBytes dst.length)
      = .ok (sizes src dst) := by
    rw [emit, if_pos]
    · rfl
    · show 0 + (sizes src dst).length ≤ 8192
      omega
  have hparts : Parts src dst junk ⟨dst, sizes src dst, 8192, 0⟩ [] [] := by
    refine ⟨rfl, rfl, Nat.succ_pos 0x7e, ⟨[], 0, Says.nil src, ?_⟩, Nat.le_refl _, ?_, ?_⟩
    · rw [if_pos rfl, List.append_nil, List.append_nil]
    · show (sizes src dst).length ≤ 8192
      omega
    · show (sizes src dst).length + 2 * dst.length ≤ _
      omega
  have hloop := diffLoop_returns maxSize hsrc _ hparts
    (by show (sizes src dst).length + 8 ≤ 8192; omega) fun hnil => absurd hnil hempty.2
  rw [hemit, ok_bind]
  cases hrun : diffLoop (deltaPrepare src) junk maxSize ⟨dst, sizes src dst, 8192, 0⟩ with
  | error fault =>
    rw [hrun] at hloop
    exact ⟨hloop.1, .inr hloop.2⟩
  | ok result =>
    rw [hrun] at hloop
    cases result with
    | none => exact .inr (.inr hloop)
    | some delta =>
      obtain ⟨hmax, body, copied, hsays, rfl⟩ := hloop
      obtain ⟨hpatch, hcount⟩ := hsays.patchDelta hsrc hlen hempty.2
      exact ⟨hpatch, hmax, copied, hsays.copied_le, hcount⟩

end LearnGit.Proofs.Git.Delta
