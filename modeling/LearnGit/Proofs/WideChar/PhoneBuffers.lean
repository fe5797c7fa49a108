import LearnGit.Proofs.WideChar.LanStrings
import LearnGit.WideChar.PhoneBuffers

/-!
# `LearnGit.Proofs.WideChar.PhoneBuffers`: the counted length and the decoded string

`length_and_conversion_agree`: when `pj_ansi_to_unicode_len` returns a length, the decoder fills a
buffer of that length, and neither of them leaves its bytes or its buffer. The array that
`lan_strings.c` gives to the decoder has a fixed length, and the theorem says for which strings it
is long enough.

The loops with pointers are the loops of `PhoneCommon` over the bytes that are left
(`ansiToUnicodeAt_eq`, `ansiToUnicodeLenAt_eq`), and of these one writes what the other counts
(`fills_of_len`). `len_eq_countFrom` gives the length as the number of sequences.
-/

set_option autoImplicit false

namespace LearnGit.Proofs.WideChar

open LearnGit.Lib
open LearnGit.WideChar

/-! ### Pointers -/

section
variable {utf8 rest : List Byte} {b : Byte} {pc : Nat}

/-- The byte at `pc`, and what is left behind it. -/
theorem drop_cons (h : utf8.drop pc = b :: rest) :
    byteAt utf8 pc = .ok b ∧ utf8.drop (pc + 1) = rest ∧ utf8.length = pc + 1 + rest.length := by
  have hget : utf8[pc]? = some b := by
    rw [← List.head?_drop, h, List.head?_cons]
  have hlen := congrArg List.length h
  rw [List.length_drop, List.length_cons] at hlen
  refine ⟨by rw [byteAt, hget], ?_, by omega⟩
  rw [← List.drop_drop, h, List.drop_one, List.tail_cons]

/-- Nothing is left of the bytes only behind their end. -/
theorem drop_nil (h : utf8.drop pc = []) : utf8.length ≤ pc := List.drop_eq_nil_iff.mp h

/-- Two bytes behind `pc`, or the end of the string. -/
theorem two_behind (h : utf8.drop (pc + 1) = rest) (hlen : utf8.length = pc + 1 + rest.length) :
    (utf8.length ≤ pc + 2 ∧ (rest = [] ∨ ∃ b₁, rest = [b₁])) ∨
      ∃ b₁ b₂ rest', rest = b₁ :: b₂ :: rest' ∧ byteAt utf8 (pc + 1) = .ok b₁ ∧
        byteAt utf8 (pc + 2) = .ok b₂ ∧ utf8.drop (pc + 3) = rest' ∧
        utf8.length = pc + 3 + rest'.length := by
  cases rest with
  | nil => exact .inl ⟨by rw [hlen, List.length_nil]; omega, .inl rfl⟩
  | cons b₁ rest =>
    obtain ⟨hread₁, hrest₁, hlen₁⟩ := drop_cons h
    cases rest with
    | nil => exact .inl ⟨by rw [hlen₁, List.length_nil], .inr ⟨b₁, rfl⟩⟩
    | cons b₂ rest =>
      obtain ⟨hread₂, hrest₂, hlen₂⟩ := drop_cons hrest₁
      exact .inr ⟨b₁, b₂, rest, rfl, hread₁, hread₂, hrest₂, hlen₂⟩

/-- Three bytes behind `pc`, or the end of the string. -/
theorem three_behind (h : utf8.drop (pc + 1) = rest) (hlen : utf8.length = pc + 1 + rest.length) :
    (utf8.length ≤ pc + 3 ∧ (rest = [] ∨ (∃ b₁, rest = [b₁]) ∨ ∃ b₁ b₂, rest = [b₁, b₂])) ∨
      ∃ b₁ b₂ b₃ rest', rest = b₁ :: b₂ :: b₃ :: rest' ∧ byteAt utf8 (pc + 1) = .ok b₁ ∧
        byteAt utf8 (pc + 2) = .ok b₂ ∧ byteAt utf8 (pc + 3) = .ok b₃ ∧
        utf8.length = pc + 4 + rest'.length := by
  rcases two_behind h hlen with ⟨hcut, hshort⟩ | ⟨b₁, b₂, rest', rfl, hread₁, hread₂, hrest₂, hlen₂⟩
  · exact .inl ⟨by omega, hshort.imp_right .inl⟩
  · cases rest' with
    | nil => exact .inl ⟨by rw [hlen₂, List.length_nil], .inr (.inr ⟨b₁, b₂, rfl⟩)⟩
    | cons b₃ rest' =>
      obtain ⟨hread₃, -, hlen₃⟩ := drop_cons hrest₂
      exact .inr ⟨b₁, b₂, b₃, rest', rfl, hread₁, hread₂, hread₃, hlen₃⟩

end

/-- A character is stored where the buffer has room. -/
theorem putChar_of_lt {capacity : Nat} {outbuf : List WChar} (h : outbuf.length < capacity) :
    ∀ ch, putChar capacity outbuf ch = .ok (outbuf ++ [ch]) := fun _ => if_pos h

/-- With a buffer that is long enough, the loop with pointers is the loop over the bytes that are
left: no byte behind them is read, and nothing is written behind the buffer. -/
theorem ansiToUnicodeAt_eq {utf8 : List Byte} {wlen : Int} {capacity : Nat} (hcap : wlen ≤ capacity)
    (rounds pc : Nat) (outbuf : List WChar) (hrounds : utf8.length ≤ pc + rounds) :
    ansiToUnicodeAt utf8 wlen capacity rounds pc outbuf
      = ansiToUnicodeLoop wlen (utf8.drop pc) outbuf := by
  induction rounds generalizing pc outbuf with
  | zero =>
    rw [List.drop_eq_nil_of_le (i := pc) (by omega)]
    rfl
  | succ rounds ih =>
    cases hdrop : utf8.drop pc with
    | nil =>
      rw [ansiToUnicodeAt, if_pos (.inl (drop_nil hdrop))]
      rfl
    | cons b rest =>
      obtain ⟨hread, hrest, hlen⟩ := drop_cons hdrop
      by_cases hfull : wlen ≤ outbuf.length
      · rw [ansiToUnicodeAt, if_pos (.inr hfull), ansiToUnicodeLoop_full hfull]
      · have hput := putChar_of_lt (show outbuf.length < capacity by omega)
        have hopen : ¬(utf8.length ≤ pc ∨ wlen ≤ outbuf.length) := by omega
        unfold ansiToUnicodeAt ansiToUnicodeLoop
        rw [if_neg hopen, if_neg hfull, hread]
        simp only [bind, Except.bind, hput]
        split
        · rfl
        split
        · rw [ih _ _ (by omega), hrest]
        split
        · -- A sequence of two bytes.
          cases rest with
          | nil =>
            rw [if_pos (by rw [hlen, List.length_nil])]
            rfl
          | cons b₁ rest =>
            obtain ⟨hread₁, hrest₁, hlen₁⟩ := drop_cons hrest
            rw [if_neg (by omega), hread₁]
            exact (ih _ _ (by omega)).trans (by rw [hrest₁])
        split
        · -- A sequence of three bytes.
          rcases two_behind hrest hlen with
            ⟨hcut, rfl | ⟨b₁, rfl⟩⟩ | ⟨b₁, b₂, rest', rfl, hread₁, hread₂, hrest₂, hlen₂⟩
          · rw [if_pos hcut]
            rfl
          · rw [if_pos hcut]
            rfl
          · rw [if_neg (by omega), hread₁, hread₂]
            show (if value3 b b₁ b₂ = 0xFEFF ∧ outbuf.length = 0 then _ else _)
              = if value3 b b₁ b₂ = 0xFEFF ∧ outbuf.length = 0 then _ else _
            rw [ih _ _ (by omega), ih _ _ (by omega), hrest₂]
        split
        · -- A sequence of four bytes, of which the assertion fails when it is there.
          rcases three_behind hrest hlen with
            ⟨hcut, rfl | ⟨b₁, rfl⟩ | ⟨b₁, b₂, rfl⟩⟩ |
              ⟨b₁, b₂, b₃, rest', rfl, hread₁, hread₂, hread₃, hlen₃⟩
          · rw [if_pos hcut]
            rfl
          · rw [if_pos hcut]
            rfl
          · rw [if_pos hcut]
            rfl
          · rw [if_neg (by omega), hread₁, hread₂, hread₃]
            rfl
        · rfl

/-- A result is the other one, with an `int`, unless the `int` has overflowed. -/
def OrOverflow (r r' : Except Fault Nat) : Prop :=
  r = .error .undefined ∨ (r = r' ∧ ∀ n, r = .ok n → n ≤ INT_MAX)

/-- A count that stays an `int` is the same in both. -/
theorem OrOverflow.ok {i : Nat} (h : i ≤ INT_MAX) : OrOverflow (.ok i) (.ok i) := by
  refine .inr ⟨rfl, fun n hn => ?_⟩
  rwa [← Except.ok.inj hn]

/-- A fault is the same in both. -/
theorem OrOverflow.error (fault : Fault) : OrOverflow (.error fault) (.error fault) := by
  refine .inr ⟨rfl, fun n hn => ?_⟩
  cases hn

/-- `i++` and what follows. -/
theorem OrOverflow.count {i : Nat} {f : Nat → Except Fault Nat} {r : Except Fault Nat}
    (h : i + 1 ≤ INT_MAX → OrOverflow (f (i + 1)) r) : OrOverflow (countUp i >>= f) r := by
  by_cases hi : i < INT_MAX
  · rw [countUp, if_pos hi]
    exact h hi
  · rw [countUp, if_neg hi]
    exact .inl rfl

/-- Counting one up agrees with the exact count or overflows. -/
theorem OrOverflow.countLast {i : Nat} : OrOverflow (countUp i) (.ok (i + 1)) := by
  by_cases hi : i < INT_MAX
  · rw [countUp, if_pos hi]
    exact OrOverflow.ok hi
  · rw [countUp, if_neg hi]
    exact .inl rfl

/-- The loop with pointers counts what the loop over the bytes that are left counts. -/
theorem ansiToUnicodeLenAt_eq (utf8 : List Byte) (rounds pc i : Nat)
    (hrounds : utf8.length ≤ pc + rounds) (hi : i ≤ INT_MAX) :
    OrOverflow (ansiToUnicodeLenAt utf8 rounds pc i) (ansiToUnicodeLenLoop (utf8.drop pc) i) := by
  induction rounds generalizing pc i with
  | zero =>
    rw [List.drop_eq_nil_of_le (i := pc) (by omega)]
    exact OrOverflow.ok hi
  | succ rounds ih =>
    cases hdrop : utf8.drop pc with
    | nil =>
      rw [ansiToUnicodeLenAt, if_pos (drop_nil hdrop)]
      exact OrOverflow.ok hi
    | cons b rest =>
      obtain ⟨hread, hrest, hlen⟩ := drop_cons hdrop
      unfold ansiToUnicodeLenAt ansiToUnicodeLenLoop
      rw [if_neg (by omega), hread]
      by_cases hzero : b = 0
      · rw [if_pos hzero]
        show OrOverflow (if b = 0 then .ok i else _) _
        rw [if_pos hzero]
        exact OrOverflow.ok hi
      rw [if_neg hzero]
      show OrOverflow (if b = 0 then _ else _) _
      rw [if_neg hzero]
      by_cases hone : b &&& 0x80 = 0
      · rw [if_pos hone, if_pos hone]
        refine OrOverflow.count fun hi' => ?_
        rw [← hrest]
        exact ih _ _ (by omega) hi'
      rw [if_neg hone, if_neg hone]
      by_cases htwo : b &&& 0xe0 = 0xc0
      · rw [if_pos htwo, if_pos htwo]
        cases rest with
        | nil =>
          rw [if_pos (by rw [hlen, List.length_nil])]
          exact OrOverflow.countLast
        | cons b₁ rest =>
          obtain ⟨hread₁, hrest₁, hlen₁⟩ := drop_cons hrest
          rw [if_neg (by omega), hread₁]
          refine OrOverflow.count fun hi' => ?_
          rw [← hrest₁]
          exact ih _ _ (by omega) hi'
      rw [if_neg htwo, if_neg htwo]
      by_cases hthree : b &&& 0xf0 = 0xe0
      · rw [if_pos hthree, if_pos hthree]
        rcases two_behind hrest hlen with
          ⟨hcut, rfl | ⟨b₁, rfl⟩⟩ | ⟨b₁, b₂, rest', rfl, hread₁, hread₂, hrest₂, hlen₂⟩
        · rw [if_pos hcut]
          exact OrOverflow.countLast
        · rw [if_pos hcut]
          exact OrOverflow.countLast
        · rw [if_neg (by omega), hread₁, hread₂, ← hrest₂]
          show OrOverflow (if value3 b b₁ b₂ = 0xFEFF ∧ i = 0 then _ else _)
            (if value3 b b₁ b₂ = 0xFEFF ∧ i = 0 then _ else _)
          by_cases hbom : value3 b b₁ b₂ = 0xFEFF ∧ i = 0
          · rw [if_pos hbom, if_pos hbom]
            exact ih _ _ (by omega) hi
          · rw [if_neg hbom, if_neg hbom]
            exact OrOverflow.count fun hi' => ih _ _ (by omega) hi'
      rw [if_neg hthree, if_neg hthree]
      by_cases hfour : b &&& 0xf8 = 0xf0
      · rw [if_pos hfour, if_pos hfour]
        rcases three_behind hrest hlen with
          ⟨hcut, rfl | ⟨b₁, rfl⟩ | ⟨b₁, b₂, rfl⟩⟩ |
            ⟨b₁, b₂, b₃, rest', rfl, hread₁, hread₂, hread₃, hlen₃⟩
        · rw [if_pos hcut]
          exact OrOverflow.countLast
        · rw [if_pos hcut]
          exact OrOverflow.countLast
        · rw [if_pos hcut]
          exact OrOverflow.countLast
        · rw [if_neg (by omega), hread₁, hread₂, hread₃]
          show OrOverflow (if value4 b b₁ b₂ b₃ &&& 0x1fffff ≠ value4 b b₁ b₂ b₃ then _ else _)
            (if value4 b b₁ b₂ b₃ &&& 0x1fffff ≠ value4 b b₁ b₂ b₃ then _ else _)
          split
          · exact OrOverflow.error _
          · exact OrOverflow.error _
      · rw [if_neg hfour, if_neg hfour]
        exact OrOverflow.error _

/-! ### The length -/

/-- The decoder fills a buffer of the counted length. -/
def Fills (bytes : List Byte) (i n : Nat) : Prop :=
  i ≤ n ∧ ∀ outbuf : List WChar, outbuf.length = i →
    ∃ buf, ansiToUnicodeLoop n bytes outbuf = .ok ⟨buf, true⟩ ∧ buf.length = n

/-- A buffer that is full stays as it is. -/
theorem Fills.self (bytes : List Byte) (n : Nat) : Fills bytes n n :=
  ⟨Nat.le_refl n, fun outbuf hlen => ⟨outbuf, ansiToUnicodeLoop_full (by omega) bytes, hlen⟩⟩

/-- A round that writes a character. -/
theorem Fills.char {bytes rest : List Byte} {i n : Nat} {c : WChar} (h : Fills rest (i + 1) n)
    (hround : ∀ outbuf : List WChar, outbuf.length = i → ¬(n : Int) ≤ outbuf.length →
      ansiToUnicodeLoop n bytes outbuf = ansiToUnicodeLoop n rest (outbuf ++ [c])) :
    Fills bytes i n := by
  have hle := h.1
  refine ⟨by omega, fun outbuf hlen => ?_⟩
  rw [hround outbuf hlen (by omega)]
  refine h.2 (outbuf ++ [c]) ?_
  rw [List.length_append, hlen, List.length_singleton]

/-- A sequence without its end. -/
theorem Fills.cut {bytes : List Byte} {i : Nat}
    (hround : ∀ outbuf : List WChar, ¬((i + 1 : Nat) : Int) ≤ outbuf.length →
      ansiToUnicodeLoop ((i + 1 : Nat) : Int) bytes outbuf = .ok ⟨outbuf ++ [QUESTION], true⟩) :
    Fills bytes i (i + 1) := by
  refine ⟨by omega, fun outbuf hlen => ⟨_, hround outbuf (by omega), ?_⟩⟩
  rw [List.length_append, hlen, List.length_singleton]

/-- What the length counts, the decoder writes. -/
theorem fills_of_len {bytes : List Byte} {i n : Nat} (h : ansiToUnicodeLenLoop bytes i = .ok n) :
    Fills bytes i n := by
  fun_induction ansiToUnicodeLenLoop bytes i with
  | case1 i =>
    rw [Except.ok.inj h]
    exact Fills.self _ _
  | case2 rest i =>
    rw [Except.ok.inj h]
    exact Fills.self _ _
  | case3 b rest i hzero hone ih =>
    refine (ih h).char (c := UInt32.ofNat b.toNat) fun outbuf _ hfull => ?_
    rw [ansiToUnicodeLoop.eq_def]
    simp only [if_neg hfull, if_neg hzero, if_pos hone]
  | case4 b i hzero hone htwo b₁ rest ih =>
    refine (ih h).char (c := UInt32.ofNat (value2 b b₁)) fun outbuf _ hfull => ?_
    rw [ansiToUnicodeLoop.eq_def]
    simp only [if_neg hfull, if_neg hzero, if_neg hone, if_pos htwo]
  | case5 b rest i hzero hone htwo hcut =>
    obtain rfl := Except.ok.inj h
    refine Fills.cut fun outbuf hfull => ?_
    rw [ansiToUnicodeLoop.eq_def]
    simp only [if_neg hfull, if_neg hzero, if_neg hone, if_pos htwo]
  | case6 b i hzero hone htwo hthree b₁ b₂ rest hbom ih =>
    obtain ⟨hle, hfill⟩ := ih h
    refine ⟨hle, fun outbuf hlen => ?_⟩
    by_cases hfull : (n : Int) ≤ outbuf.length
    · exact ⟨outbuf, ansiToUnicodeLoop_full hfull _, by omega⟩
    · rw [← hlen] at hbom
      rw [ansiToUnicodeLoop.eq_def]
      simp only [if_neg hfull, if_neg hzero, if_neg hone, if_neg htwo, if_pos hthree, if_pos hbom]
      exact hfill outbuf hlen
  | case7 b i hzero hone htwo hthree b₁ b₂ rest hbom ih =>
    refine (ih h).char (c := UInt32.ofNat (value3 b b₁ b₂)) fun outbuf hlen hfull => ?_
    rw [← hlen] at hbom
    rw [ansiToUnicodeLoop.eq_def]
    simp only [if_neg hfull, if_neg hzero, if_neg hone, if_neg htwo, if_pos hthree, if_neg hbom]
  | case8 b rest i hzero hone htwo hthree hcut =>
    obtain rfl := Except.ok.inj h
    refine Fills.cut fun outbuf hfull => ?_
    rw [ansiToUnicodeLoop.eq_def]
    simp only [if_neg hfull, if_neg hzero, if_neg hone, if_neg htwo, if_pos hthree]
  | case9 => cases h
  | case10 b i hzero hone htwo hthree hfour b₁ b₂ b₃ rest value hvalue m hcount => cases hcount
  | case11 => cases h
  | case12 b rest i hzero hone htwo hthree hfour hcut =>
    obtain rfl := Except.ok.inj h
    refine Fills.cut fun outbuf hfull => ?_
    rw [ansiToUnicodeLoop.eq_def]
    simp only [if_neg hfull, if_neg hzero, if_neg hone, if_neg htwo, if_neg hthree, if_pos hfour]
  | case13 => cases h

/-! ### Characters -/

/-- The length of the sequence that starts with this byte. -/
def seqLength (b : Byte) : Nat :=
  if b &&& 0x80 = 0 then 1 else if b &&& 0xe0 = 0xc0 then 2 else if b &&& 0xf0 = 0xe0 then 3 else 4

/-- The sequences of a string up to its NUL, of which the last may be cut. -/
def sequences : Nat → List Byte → List (List Byte)
  | 0, _ => []
  | _ + 1, [] => []
  | count + 1, b :: rest =>
    if b = 0 then []
    else (b :: rest).take (seqLength b) :: sequences count ((b :: rest).drop (seqLength b))

/-- A byte order mark. -/
def isMark : List Byte → Bool
  | [b, b₁, b₂] => b &&& 0xf0 = 0xe0 && value3 b b₁ b₂ = 0xFEFF
  | _ => false

/-- The number of characters of a string, without byte order marks in front of them. -/
def charCount (utf8 : List Byte) : Nat :=
  ((sequences utf8.length utf8).dropWhile isMark).length

/-- The characters of these sequences behind `i` characters. -/
def countFrom (i : Nat) (seqs : List (List Byte)) : Nat :=
  if i = 0 then (seqs.dropWhile isMark).length else i + seqs.length

/-- A sequence that is no mark at the start counts one. -/
theorem countFrom_cons {i : Nat} {seq : List Byte} (h : isMark seq = false ∨ i ≠ 0)
    (seqs : List (List Byte)) : countFrom i (seq :: seqs) = countFrom (i + 1) seqs := by
  rw [countFrom, countFrom, if_neg (Nat.succ_ne_zero i), List.length_cons]
  by_cases hi : i = 0
  · have hmark : ¬isMark seq = true := by simpa using h.resolve_right (not_not.mpr hi)
    rw [if_pos hi, List.dropWhile_cons_of_neg hmark, List.length_cons, hi]
    omega
  · rw [if_neg hi]
    omega

/-- A mark at the start counts nothing. -/
theorem countFrom_mark {seq : List Byte} (h : isMark seq = true) (seqs : List (List Byte)) :
    countFrom 0 (seq :: seqs) = countFrom 0 seqs := by
  rw [countFrom, countFrom, if_pos rfl, if_pos rfl, List.dropWhile_cons_of_pos h]

/-- Without sequences the count stays. -/
theorem countFrom_nil (i : Nat) : countFrom i [] = i := by
  rw [countFrom]
  split
  · rename_i h
    exact h.symm
  · rfl

/-- An empty text has no sequences. -/
theorem sequences_nil (count : Nat) : sequences count [] = [] := by
  cases count with
  | zero => rfl
  | succ count => rfl

/-- The first sequence and the others. -/
theorem sequences_cons {b : Byte} (hb : b ≠ 0) {rest : List Byte} {count len : Nat}
    (hlen : seqLength b = len) (hcount : (b :: rest).length ≤ count) :
    ∃ count', rest.length ≤ count' ∧ sequences count (b :: rest)
      = (b :: rest).take len :: sequences count' ((b :: rest).drop len) := by
  cases count with
  | zero => exact absurd hcount (Nat.not_succ_le_zero _)
  | succ count =>
    refine ⟨count, Nat.le_of_succ_le_succ hcount, ?_⟩
    rw [sequences, if_neg hb, hlen]

/-- A sequence without its end is the last one. -/
theorem countFrom_cut {b : Byte} (hb : b ≠ 0) {rest : List Byte} {count len i : Nat}
    (hlen : seqLength b = len) (hcount : (b :: rest).length ≤ count)
    (hcut : (b :: rest).length ≤ len) (hmark : isMark (b :: rest) = false) :
    i + 1 = countFrom i (sequences count (b :: rest)) := by
  obtain ⟨count', -, hseqs⟩ := sequences_cons hb hlen hcount
  rw [hseqs, List.take_of_length_le hcut, List.drop_eq_nil_of_le hcut, sequences_nil,
    countFrom_cons (.inl hmark), countFrom_nil]

/-- The length is the number of characters. -/
theorem len_eq_countFrom {bytes : List Byte} {i n count : Nat} (hcount : bytes.length ≤ count)
    (h : ansiToUnicodeLenLoop bytes i = .ok n) : n = countFrom i (sequences count bytes) := by
  fun_induction ansiToUnicodeLenLoop bytes i generalizing count with
  | case1 i =>
    rw [sequences_nil, countFrom_nil, Except.ok.inj h]
  | case2 rest i =>
    have hnil : sequences count (0 :: rest) = [] := by
      cases count with
      | zero => rfl
      | succ count => exact if_pos rfl
    rw [hnil, countFrom_nil, Except.ok.inj h]
  | case3 b rest i hzero hone ih =>
    have hlen : seqLength b = 1 := if_pos hone
    obtain ⟨count', hcount', hseqs⟩ := sequences_cons hzero hlen hcount
    rw [hseqs, countFrom_cons (.inl rfl)]
    exact ih hcount' h
  | case4 b i hzero hone htwo b₁ rest ih =>
    have hlen : seqLength b = 2 := by rw [seqLength, if_neg hone, if_pos htwo]
    obtain ⟨count', hcount', hseqs⟩ := sequences_cons hzero hlen hcount
    rw [hseqs, countFrom_cons (.inl rfl)]
    exact ih (Nat.le_of_succ_le hcount') h
  | case5 b rest i hzero hone htwo hcut =>
    have hlen : seqLength b = 2 := by rw [seqLength, if_neg hone, if_pos htwo]
    cases rest with
    | nil => exact (Except.ok.inj h).symm.trans (countFrom_cut hzero hlen hcount (by simp) rfl)
    | cons b₁ rest => exact (hcut b₁ rest rfl).elim
  | case6 b i hzero hone htwo hthree b₁ b₂ rest hbom ih =>
    have hlen : seqLength b = 3 := by rw [seqLength, if_neg hone, if_neg htwo, if_pos hthree]
    have hmark : isMark [b, b₁, b₂] = true := by simp [isMark, hthree, hbom.1]
    obtain ⟨count', hcount', hseqs⟩ := sequences_cons hzero hlen hcount
    obtain ⟨-, rfl⟩ := hbom
    rw [hseqs]
    refine Eq.trans ?_ (countFrom_mark hmark _).symm
    exact ih (by simp only [List.length_cons] at hcount'; omega) h
  | case7 b i hzero hone htwo hthree b₁ b₂ rest hbom ih =>
    have hlen : seqLength b = 3 := by rw [seqLength, if_neg hone, if_neg htwo, if_pos hthree]
    have hmark : isMark [b, b₁, b₂] = false ∨ i ≠ 0 := by
      by_cases hi : i = 0
      · refine .inl ?_
        simp only [isMark, Bool.and_eq_false_iff, decide_eq_false_iff_not]
        exact .inr fun hvalue => hbom ⟨hvalue, hi⟩
      · exact .inr hi
    obtain ⟨count', hcount', hseqs⟩ := sequences_cons hzero hlen hcount
    rw [hseqs]
    refine Eq.trans ?_ (countFrom_cons hmark _).symm
    exact ih (by simp only [List.length_cons] at hcount'; omega) h
  | case8 b rest i hzero hone htwo hthree hcut =>
    have hlen : seqLength b = 3 := by rw [seqLength, if_neg hone, if_neg htwo, if_pos hthree]
    refine (Except.ok.inj h).symm.trans ?_
    cases rest with
    | nil => exact countFrom_cut hzero hlen hcount (by simp) rfl
    | cons b₁ rest =>
      cases rest with
      | nil => exact countFrom_cut hzero hlen hcount (by simp) rfl
      | cons b₂ rest => exact (hcut b₁ b₂ rest rfl).elim
  | case9 => cases h
  | case10 b i hzero hone htwo hthree hfour b₁ b₂ b₃ rest value hvalue m hfour' => cases hfour'
  | case11 => cases h
  | case12 b rest i hzero hone htwo hthree hfour hcut =>
    have hlen : seqLength b = 4 := by rw [seqLength, if_neg hone, if_neg htwo, if_neg hthree]
    refine (Except.ok.inj h).symm.trans ?_
    cases rest with
    | nil => exact countFrom_cut hzero hlen hcount (by simp) rfl
    | cons b₁ rest =>
      cases rest with
      | nil => exact countFrom_cut hzero hlen hcount (by simp) rfl
      | cons b₂ rest =>
        cases rest with
        | nil =>
          refine countFrom_cut hzero hlen hcount (by simp) ?_
          simp [isMark, hthree]
        | cons b₃ rest => exact (hcut b₁ b₂ b₃ rest rfl).elim
  | case13 => cases h

/-! ### The buffer of the string tool -/

/-- With a buffer of `n` wide characters the decoder reads nothing behind the bytes, writes nothing
behind the buffer, and fills it. An empty string has no length, and is not decoded. -/
def Agrees (utf8 : List Byte) (n : Int) : Prop :=
  (n = -1 ∧ utf8 = []) ∨
    (0 ≤ n ∧ ∃ buf, pjAnsiToUnicodeAt utf8 (UInt64.ofNat (n.toNat * SIZEOF_WCHAR)) n.toNat
      = .ok ⟨buf, true⟩ ∧ buf.length = n.toNat)

/-- The array that `lan_strings.c` has for a string holds what it writes there. -/
def ArrayHolds (data : List Byte) : Prop := ∃ value, strValueAt data = .ok value

/-- The length is -1 for an empty text and the count of the loop otherwise. -/
theorem pjAnsiToUnicodeLenAt_ok {utf8 : List Byte} {n : Int}
    (h : pjAnsiToUnicodeLenAt utf8 = .ok n) :
    (n = -1 ∧ utf8 = []) ∨
      (utf8 ≠ [] ∧ ∃ k : Nat, n = k ∧ k ≤ INT_MAX ∧ ansiToUnicodeLenLoop utf8 0 = .ok k) := by
  rw [pjAnsiToUnicodeLenAt] at h
  by_cases hempty : utf8.length = 0
  · rw [if_pos hempty] at h
    exact .inl ⟨(Except.ok.inj h).symm, List.length_eq_zero_iff.mp hempty⟩
  · rw [if_neg hempty] at h
    have hloop := ansiToUnicodeLenAt_eq utf8 utf8.length 0 0 (by omega) (by decide)
    refine .inr ⟨fun hnil => hempty (by rw [hnil]; rfl), ?_⟩
    cases hcount : ansiToUnicodeLenAt utf8 utf8.length 0 0 with
    | error fault =>
      rw [hcount] at h
      cases h
    | ok k =>
      rw [hcount] at h hloop
      rcases hloop with hfault | ⟨heq, hmax⟩
      · cases hfault
      · exact ⟨k, (Except.ok.inj h).symm, hmax k rfl, heq.symm⟩

/-- A length that is an `int` comes back from the number of bytes it is turned into. -/
theorem wlen_eq {k : Nat} (hk : k ≤ INT_MAX) :
    (UInt64.ofNat (k * SIZEOF_WCHAR)).toNat = k * SIZEOF_WCHAR
      ∧ toInt32 (k * SIZEOF_WCHAR / SIZEOF_WCHAR) = k := by
  have hmax : INT_MAX = 2 ^ 31 - 1 := rfl
  have hsize : SIZEOF_WCHAR = 4 := rfl
  constructor
  · rw [UInt64.toNat_ofNat', hsize]
    omega
  · rw [Nat.mul_div_cancel k (by decide), toInt32_of_lt (by omega)]

/-- In an array that is long enough, the decoder with pointers is the one over the bytes. -/
theorem pjAnsiToUnicodeAt_eq (utf8 : List Byte) {k capacity : Nat} (hk : k ≤ INT_MAX)
    (hcap : k ≤ capacity) :
    pjAnsiToUnicodeAt utf8 (UInt64.ofNat (k * SIZEOF_WCHAR)) capacity
      = pjAnsiToUnicode utf8 (UInt64.ofNat (k * SIZEOF_WCHAR)) := by
  obtain ⟨hbytes, hwlen⟩ := wlen_eq hk
  have hroom : ¬capacity * SIZEOF_WCHAR < k * SIZEOF_WCHAR :=
    Nat.not_lt.mpr (Nat.mul_le_mul_right _ hcap)
  rw [pjAnsiToUnicodeAt, pjAnsiToUnicode, hbytes, if_neg hroom, hwlen,
    ansiToUnicodeAt_eq (by omega) _ _ _ (by omega), List.drop_zero]

/-- The decoder fills the counted part of its buffer. -/
theorem pjAnsiToUnicode_fills {utf8 : List Byte} (hne : utf8 ≠ []) {k : Nat} (hk : k ≤ INT_MAX)
    (h : ansiToUnicodeLenLoop utf8 0 = .ok k) :
    ∃ buf, pjAnsiToUnicode utf8 (UInt64.ofNat (k * SIZEOF_WCHAR)) = .ok ⟨buf, true⟩
      ∧ buf.length = k := by
  obtain ⟨hbytes, hwlen⟩ := wlen_eq hk
  obtain ⟨buf, hbuf, hlen⟩ := (fills_of_len h).2 [] rfl
  refine ⟨buf, ?_, hlen⟩
  rw [pjAnsiToUnicode, hbytes, hwlen, if_neg fun h => hne (List.length_eq_zero_iff.mp h), hbuf]

section
variable {data : List Byte} {k : Nat} (hlen : pjAnsiToUnicodeLenAt data = .ok k)
include hlen

/-- A string with room for the NUL behind it is held, as in the model over the bytes. -/
theorem strValueAt_ok (hk : k ≤ INT_MAX) (hne : data ≠ [])
    (h : ansiToUnicodeLenLoop data 0 = .ok k) (hroom : k < BUFFER) :
    ∃ value, strValueAt data = .ok value ∧ strValue (some data) = .ok value := by
  have hwlen : ¬(k : Int) = -1 := by omega
  have hlen' : pjAnsiToUnicodeLen data = .ok k := by
    rw [pjAnsiToUnicodeLen, if_neg fun h => hne (List.length_eq_zero_iff.mp h), h]
    rfl
  obtain ⟨buf, hbuf, -⟩ := pjAnsiToUnicode_fills hne hk h
  refine ⟨some (wcs buf), ?_, ?_⟩
  · simp only [strValueAt, hlen, bind, Except.bind, if_neg hwlen, Int.toNat_natCast,
      pjAnsiToUnicodeAt_eq data hk (Nat.le_of_lt hroom), hbuf]
    exact if_pos (by omega)
  · simp only [strValue, hlen', if_neg hwlen, Int.toNat_natCast, hbuf]
    exact if_neg (by omega)

/-- A longer string overruns the array, with its characters or with its NUL. -/
theorem strValueAt_error (hlong : BUFFER ≤ k) : ∀ value, strValueAt data ≠ .ok value := by
  have hwlen : ¬(k : Int) = -1 := by omega
  have hroom : ¬(k : Int) < BUFFER := by omega
  intro value hvalue
  simp only [strValueAt, hlen, bind, Except.bind, if_neg hwlen, Int.toNat_natCast,
    if_neg hroom] at hvalue
  split at hvalue <;> cases hvalue

end

/-- The decoder fills a buffer of the length that was counted for a string, without a read behind
the string or a write behind the buffer. The string tool has an array of 1024 wide characters
whatever the length is, which holds a string and its NUL when it has fewer characters. -/
theorem length_and_conversion_agree (utf8 : List Byte) (n : Int)
    (h : pjAnsiToUnicodeLenAt utf8 = .ok n) :
    Agrees utf8 n ∧ (ArrayHolds utf8 ↔ charCount utf8 < BUFFER) := by
  rcases pjAnsiToUnicodeLenAt_ok h with ⟨rfl, rfl⟩ | ⟨hne, k, rfl, hk, hlen⟩
  · exact ⟨.inl ⟨rfl, rfl⟩, iff_of_true ⟨none, rfl⟩ (by decide)⟩
  · have hcount : k = charCount utf8 := by
      have heq := len_eq_countFrom (Nat.le_refl utf8.length) hlen
      rwa [countFrom, if_pos rfl] at heq
    refine ⟨.inr ⟨by omega, ?_⟩, ?_⟩
    · rw [Int.toNat_natCast, pjAnsiToUnicodeAt_eq utf8 hk (Nat.le_refl k)]
      exact pjAnsiToUnicode_fills hne hk hlen
    · rw [← hcount]
      constructor
      · rintro ⟨value, hvalue⟩
        by_contra hlong
        exact strValueAt_error h (Nat.le_of_not_lt hlong) value hvalue
      · intro hroom
        obtain ⟨value, hvalue, -⟩ := strValueAt_ok h hk hne hlen hroom
        exact ⟨value, hvalue⟩

/-- The euro sign behind a byte order mark. -/
theorem length_and_conversion_agree_euro :
    Agrees [0xef, 0xbb, 0xbf, 0xe2, 0x82, 0xac] 1
      ∧ (ArrayHolds [0xef, 0xbb, 0xbf, 0xe2, 0x82, 0xac]
        ↔ charCount [0xef, 0xbb, 0xbf, 0xe2, 0x82, 0xac] < BUFFER) :=
  length_and_conversion_agree _ _ (by decide)

/-- The loop counts every letter of a text of letters alone. -/
theorem ansiToUnicodeLenAt_a {m : Nat} (rounds pc i : Nat) (hm : pc + rounds = m)
    (hi : i + rounds ≤ INT_MAX) :
    ansiToUnicodeLenAt (List.replicate m 0x61) rounds pc i = .ok (i + rounds) := by
  induction rounds generalizing pc i with
  | zero => rfl
  | succ rounds ih =>
    have hopen : ¬(List.replicate m (0x61 : Byte)).length ≤ pc := by
      rw [List.length_replicate]
      omega
    have hread : byteAt (List.replicate m 0x61) pc = .ok 0x61 := by
      rw [byteAt, List.getElem?_replicate_of_lt (by omega)]
    have hcount : countUp i = .ok (i + 1) := if_pos (by omega)
    rw [ansiToUnicodeLenAt, if_neg hopen, hread]
    show (countUp i >>= fun i => ansiToUnicodeLenAt (List.replicate m 0x61) rounds (pc + 1) i) = _
    rw [hcount]
    show ansiToUnicodeLenAt (List.replicate m 0x61) rounds (pc + 1) (i + 1) = _
    rw [ih _ _ (by omega) (by omega), Nat.add_right_comm, Nat.add_assoc]

/-- A string of 1025 letters: the array of the string tool has one place less. -/
theorem array_overrun :
    pjAnsiToUnicodeLenAt (List.replicate 1025 0x61) = .ok 1025
      ∧ ¬ArrayHolds (List.replicate 1025 0x61) := by
  have hlen : pjAnsiToUnicodeLenAt (List.replicate 1025 0x61) = .ok ((1025 : Nat) : Int) := by
    rw [pjAnsiToUnicodeLenAt, List.length_replicate, if_neg (by decide),
      ansiToUnicodeLenAt_a 1025 0 0 rfl (by decide)]
    rfl
  refine ⟨hlen, ?_⟩
  rintro ⟨value, hvalue⟩
  exact strValueAt_error hlen (by decide) value hvalue

end LearnGit.Proofs.WideChar
