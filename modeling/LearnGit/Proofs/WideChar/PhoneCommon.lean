import LearnGit.WideChar.PhoneCommon

/-!
# `LearnGit.Proofs.WideChar.PhoneCommon`: which wide strings survive UTF-8 and back

`round_trip_iff`: a string comes back exactly when it is not empty, all its characters are below
0x10000 and the lengths fit an `int`. The decoder asserts that a `wchar_t` has at least 21
bytes, where bits are meant, so every sequence of four bytes fails.

`encodeChar_cases` splits a character into the groups of bits that its bytes carry. The lemmas
`ansiToUnicodeLoop_char` and `ansiToUnicodeLoop_four` say what the decoder does with the bytes
of one character.
-/

set_option autoImplicit false

namespace LearnGit.Proofs.WideChar

open LearnGit.Lib
open LearnGit.WideChar

/-! ### Statement -/

/-- A wide string of code points that does not start with a byte order mark. -/
structure WideString where
  chars : List WChar
  range : ∀ c ∈ chars, 1 ≤ c.toNat ∧ c.toNat ≤ 0x1FFFFF
  noMark : chars.head? ≠ some 0xFEFF

/-- The bytes of a character. -/
def utf8 (c : WChar) : List Byte := (encodeChar c.toNat).getD []

/-- The bytes of a string. -/
def utf8s (chars : List WChar) : List Byte := chars.flatMap utf8

/-- The string is encoded, and the decoder returns it. -/
def RoundTrip (chars : List WChar) (len bufSize bufCount : UInt64) : Prop :=
  ∃ bytes, pjUnicodeToAnsi chars len bufSize = .ok ⟨bytes, true⟩ ∧
    pjAnsiToUnicode bytes bufCount = .ok ⟨chars, true⟩

/-! ### Bytes -/

/-- A first byte, with these bits under this mark. -/
def lead (mark bits : Nat) : Byte := UInt8.ofNat (bits ||| mark)

/-- A byte after the first. -/
def tail (bits : Nat) : Byte := UInt8.ofNat (bits ||| 0x80)

/-- A following byte carries six bits and its mark. -/
theorem tail_table : ∀ l : Fin 64,
    (tail l.val).toNat &&& 0x3f = l.val ∧ tail l.val &&& 0xc0 = 0x80 := by
  decide

/-- A byte below 128 stands for itself. -/
theorem lead1_table : ∀ h : Fin 128, UInt8.ofNat h.val &&& 0x80 = 0 ∧
    (UInt8.ofNat h.val).toNat = h.val ∧ (UInt8.ofNat h.val = 0 → h.val = 0) := by
  decide

/-- The first of two bytes carries five bits and its mark. -/
theorem lead2_table : ∀ h : Fin 32, (lead 0xc0 h.val).toNat &&& 0x1f = h.val ∧
    lead 0xc0 h.val ≠ 0 ∧ ¬lead 0xc0 h.val &&& 0x80 = 0 ∧ lead 0xc0 h.val &&& 0xe0 = 0xc0 := by
  decide

/-- The first of three bytes carries four bits and its mark. -/
theorem lead3_table : ∀ h : Fin 16, (lead 0xe0 h.val).toNat &&& 0x0f = h.val ∧
    lead 0xe0 h.val ≠ 0 ∧ ¬lead 0xe0 h.val &&& 0x80 = 0 ∧ ¬lead 0xe0 h.val &&& 0xe0 = 0xc0 ∧
    lead 0xe0 h.val &&& 0xf0 = 0xe0 := by
  decide

/-- The first of four bytes carries three bits and its mark. -/
theorem lead4_table : ∀ h : Fin 8,
    lead 0xf0 h.val ≠ 0 ∧ ¬lead 0xf0 h.val &&& 0x80 = 0 ∧ ¬lead 0xf0 h.val &&& 0xe0 = 0xc0 ∧
    ¬lead 0xf0 h.val &&& 0xf0 = 0xe0 ∧ lead 0xf0 h.val &&& 0xf8 = 0xf0 := by
  decide

/-- The low six bits of a number. -/
theorem and_six (n : Nat) : n &&& 0x3f = n % 64 := Nat.and_two_pow_sub_one_eq_mod n 6

/-- Shifting and setting the low bits is multiplying and adding. -/
theorem shiftLeft_or {a b k : Nat} (h : b < 2 ^ k) : a <<< k ||| b = a * 2 ^ k + b := by
  rw [← Nat.shiftLeft_add_eq_or_of_lt h, Nat.shiftLeft_eq]

/-- Two bytes decode to the eleven bits they carry. -/
theorem value2_eq {h l : Nat} (hh : h < 32) (hl : l < 64) :
    value2 (lead 0xc0 h) (tail l) = h * 64 + l := by
  rw [value2, (lead2_table ⟨h, hh⟩).1, (tail_table ⟨l, hl⟩).1]
  exact shiftLeft_or hl

/-- Three bytes decode to the sixteen bits they carry. -/
theorem value3_eq {h m l : Nat} (hh : h < 16) (hm : m < 64) (hl : l < 64) :
    value3 (lead 0xe0 h) (tail m) (tail l) = h * 4096 + m * 64 + l := by
  rw [value3, (lead3_table ⟨h, hh⟩).1, (tail_table ⟨m, hm⟩).1, (tail_table ⟨l, hl⟩).1]
  dsimp only
  rw [Nat.or_assoc, shiftLeft_or (k := 6) hl, shiftLeft_or (by omega)]
  omega

/-- The bytes of a character, and its bits in groups. -/
theorem encodeChar_cases {c : Nat} (hc : c < 1 <<< 21) :
    (c < 0x80 ∧ encodeChar c = some [UInt8.ofNat c]) ∨
    (∃ h l, h < 32 ∧ l < 64 ∧ c = h * 64 + l ∧ encodeChar c = some [lead 0xc0 h, tail l]) ∨
    (∃ h m l, h < 16 ∧ m < 64 ∧ l < 64 ∧ c = h * 4096 + m * 64 + l ∧
      encodeChar c = some [lead 0xe0 h, tail m, tail l]) ∨
    (∃ h k m l, h < 8 ∧ k < 64 ∧ m < 64 ∧ l < 64 ∧ 0x10000 ≤ c ∧
      encodeChar c = some [lead 0xf0 h, tail k, tail m, tail l]) := by
  simp only [Nat.shiftLeft_eq] at hc
  simp only [encodeChar, and_six, Nat.shiftRight_eq_div_pow, Nat.shiftLeft_eq]
  by_cases h₁ : c < 0x80
  · left
    exact ⟨h₁, if_pos h₁⟩
  by_cases h₂ : c < 0x800
  · right; left
    refine ⟨c / 64, c % 64, by omega, by omega, by omega, ?_⟩
    rw [if_neg h₁, if_pos h₂]
    rfl
  by_cases h₃ : c < 0x10000
  · right; right; left
    refine ⟨c / 4096, c / 64 % 64, c % 64, by omega, by omega, by omega, by omega, ?_⟩
    rw [if_neg h₁, if_neg h₂, if_pos h₃]
    rfl
  · right; right; right
    refine ⟨c / 262144, c / 4096 % 64, c / 64 % 64, c % 64, by omega, by omega, by omega,
      by omega, by omega, ?_⟩
    rw [if_neg h₁, if_neg h₂, if_neg h₃, if_pos hc]
    rfl

/-! ### Decoding -/

section Decode

variable {wlen : Int} {outbuf : List WChar} {c : WChar}

/-- With the buffer full the loop stops and tells so. -/
theorem ansiToUnicodeLoop_full (h : wlen ≤ outbuf.length) (bytes : List Byte) :
    ansiToUnicodeLoop wlen bytes outbuf = .ok ⟨outbuf, true⟩ := by
  unfold ansiToUnicodeLoop
  cases bytes with
  | nil => rfl
  | cons b rest => exact if_pos h

/-- A character below 0x10000 is read back, unless it is a byte order mark at the front. -/
theorem ansiToUnicodeLoop_char (hpos : c ≠ 0) (hlt : c.toNat < 0x10000)
    (hroom : ¬wlen ≤ outbuf.length) (rest : List Byte) :
    ansiToUnicodeLoop wlen (utf8 c ++ rest) outbuf
      = if c = 0xFEFF ∧ outbuf = [] then ansiToUnicodeLoop wlen rest outbuf
        else ansiToUnicodeLoop wlen rest (outbuf ++ [c]) := by
  have hpos' : c.toNat ≠ 0 := fun h => hpos (UInt32.toNat_inj.mp h)
  have hback : UInt32.ofNat c.toNat = c := UInt32.ofNat_toNat
  rcases encodeChar_cases (show c.toNat < 1 <<< 21 by rw [Nat.shiftLeft_eq]; omega) with
    ⟨h₁, henc⟩ | ⟨h, l, hh, hl, hc, henc⟩ | ⟨h, m, l, hh, hm, hl, hc, henc⟩ |
    ⟨h, k, m, l, -, -, -, -, hge, -⟩
  · obtain ⟨hbit, hval, hzero⟩ := lead1_table ⟨c.toNat, h₁⟩
    have hbom : ¬(c = 0xFEFF ∧ outbuf = []) := by
      rintro ⟨rfl, -⟩
      exact absurd h₁ (by decide)
    rw [utf8, henc, if_neg hbom]
    conv_lhs => unfold ansiToUnicodeLoop
    simp only [Option.getD_some, List.cons_append, List.nil_append, hroom, hbit, hval, hback,
      if_false, if_true, if_neg (fun h => hpos' (hzero h))]
  · obtain ⟨-, hzero, hbit, hmark⟩ := lead2_table ⟨h, hh⟩
    have hbom : ¬(c = 0xFEFF ∧ outbuf = []) := by
      rintro ⟨rfl, -⟩
      exact absurd (show 0xFEFF = h * 64 + l from hc) (by omega)
    rw [utf8, henc, if_neg hbom]
    conv_lhs => unfold ansiToUnicodeLoop
    simp only [Option.getD_some, List.cons_append, List.nil_append, hroom, hbit, hzero, hmark,
      if_false, if_true, value2_eq hh hl, ← hc, hback]
  · obtain ⟨-, hzero, hbit, hmark, hmark'⟩ := lead3_table ⟨h, hh⟩
    have hbom : (c.toNat = 0xFEFF ∧ outbuf.length = 0) ↔ (c = 0xFEFF ∧ outbuf = []) := by
      rw [List.length_eq_zero_iff, ← UInt32.toNat_inj]
      rfl
    rw [utf8, henc]
    conv_lhs => unfold ansiToUnicodeLoop
    simp only [Option.getD_some, List.cons_append, List.nil_append, hroom, hbit, hzero, hmark,
      hmark', if_false, if_true, value3_eq hh hm hl, ← hc, hback, hbom]
  · omega

/-- The decoder fails on every sequence of four bytes. -/
theorem ansiToUnicodeLoop_four (hge : 0x10000 ≤ c.toNat) (hlt : c.toNat < 0x200000)
    (hroom : ¬wlen ≤ outbuf.length) (rest : List Byte) :
    ansiToUnicodeLoop wlen (utf8 c ++ rest) outbuf = .error .assertFailed := by
  rcases encodeChar_cases (show c.toNat < 1 <<< 21 by rw [Nat.shiftLeft_eq]; omega) with
    ⟨h₁, -⟩ | ⟨h, l, hh, hl, hc, -⟩ | ⟨h, m, l, hh, hm, hl, hc, -⟩ |
    ⟨h, k, m, l, hh, -, -, -, -, henc⟩
  · omega
  · omega
  · omega
  · obtain ⟨hzero, hbit, hmark, hmark', hmark''⟩ := lead4_table ⟨h, hh⟩
    have hwide : ∀ value, wide4 value = none := fun value => rfl
    rw [utf8, henc]
    unfold ansiToUnicodeLoop
    simp only [Option.getD_some, List.cons_append, List.nil_append, hroom, hbit, hzero, hmark,
      hmark', hmark'', if_false, if_true, hwide, ite_self]

/-- The decoder writes at most a character for each one that was encoded and at most `wlen`, and
as many as there were only when none has four bytes. -/
theorem ansiToUnicodeLoop_bound {chars : List WChar}
    (hchars : ∀ c ∈ chars, 1 ≤ c.toNat ∧ c.toNat ≤ 0x1FFFFF) :
    ∀ {outbuf : List WChar} {r : Filled WChar},
      ansiToUnicodeLoop wlen (utf8s chars) outbuf = .ok r →
      r.buf.length ≤ outbuf.length + chars.length ∧
        (r.buf.length : Int) ≤ max (outbuf.length : Int) wlen ∧
        (r.buf.length = outbuf.length + chars.length → ∀ c ∈ chars, c.toNat < 0x10000) := by
  induction chars with
  | nil =>
    intro outbuf r h
    have hr : (⟨outbuf, true⟩ : Filled WChar) = r := Except.ok.inj h
    rw [← hr]
    exact ⟨Nat.le_refl _, by dsimp only; omega, by simp⟩
  | cons c chars ih =>
    intro outbuf r h
    obtain ⟨hpos, hle⟩ := hchars c List.mem_cons_self
    have hcons : utf8s (c :: chars) = utf8 c ++ utf8s chars := List.flatMap_cons
    rw [hcons] at h
    rw [List.length_cons]
    by_cases hroom : wlen ≤ outbuf.length
    · rw [ansiToUnicodeLoop_full hroom] at h
      rw [← Except.ok.inj h]
      dsimp only
      exact ⟨by omega, by omega, by omega⟩
    by_cases hlt : c.toNat < 0x10000
    · have hne : c ≠ 0 := by
        rintro rfl
        exact absurd hpos (by decide)
      rw [ansiToUnicodeLoop_char hne hlt hroom] at h
      have hrest := fun c hc => hchars c (List.mem_cons_of_mem _ hc)
      split at h
      · obtain ⟨hlen, hwlen, -⟩ := ih hrest h
        exact ⟨by omega, hwlen, by omega⟩
      · obtain ⟨hlen, hwlen, hall⟩ := ih hrest h
        rw [List.length_append, List.length_singleton] at hlen hwlen hall
        refine ⟨by omega, by omega, ?_⟩
        intro heq c' hc'
        rcases List.mem_cons.mp hc' with rfl | hc'
        · exact hlt
        · exact hall (by omega) c' hc'
    · rw [ansiToUnicodeLoop_four (by omega) (by omega) hroom] at h
      exact nomatch h

/-- A string of characters below 0x10000 is read back. -/
theorem ansiToUnicodeLoop_chars {chars : List WChar}
    (hchars : ∀ c ∈ chars, c ≠ 0 ∧ c.toNat < 0x10000) :
    ∀ {outbuf : List WChar}, (outbuf = [] → chars.head? ≠ some 0xFEFF) →
      (outbuf.length + chars.length : Int) ≤ wlen →
      ansiToUnicodeLoop wlen (utf8s chars) outbuf = .ok ⟨outbuf ++ chars, true⟩ := by
  induction chars with
  | nil =>
    intro outbuf _ _
    rw [List.append_nil]
    rfl
  | cons c chars ih =>
    intro outbuf hmark hlen
    obtain ⟨hne, hlt⟩ := hchars c List.mem_cons_self
    have hcons : utf8s (c :: chars) = utf8 c ++ utf8s chars := List.flatMap_cons
    have hbom : ¬(c = 0xFEFF ∧ outbuf = []) := by
      rintro ⟨rfl, hnil⟩
      exact hmark hnil rfl
    rw [List.length_cons] at hlen
    rw [hcons, ansiToUnicodeLoop_char hne hlt (by omega), if_neg hbom,
      ih (fun c hc => hchars c (List.mem_cons_of_mem _ hc)) (by simp)
        (by rw [List.length_append, List.length_singleton]; omega),
      List.append_assoc, List.singleton_append]

end Decode

/-! ### Encoding -/

section Encode

variable {bufSize : Nat} {chars : List WChar}

/-- The encoder writes the front of the string, and no more than an `int` counts. -/
theorem unicodeToAnsiLoop_ok :
    ∀ {buf : List Byte} {r : Filled Byte}, buf.length ≤ INT_MAX →
      unicodeToAnsiLoop bufSize chars buf = .ok r →
      r.buf.length ≤ INT_MAX ∧ ∃ n, r.buf = buf ++ utf8s (chars.take n) := by
  induction chars with
  | nil =>
    intro buf r hbuf h
    rw [← Except.ok.inj h]
    exact ⟨hbuf, 0, by simp [utf8s]⟩
  | cons c chars ih =>
    intro buf r hbuf h
    rw [unicodeToAnsiLoop] at h
    split at h
    · rw [← Except.ok.inj h]
      exact ⟨hbuf, 0, by simp [utf8s]⟩
    rename_i bytes henc
    split at h
    · rw [← Except.ok.inj h]
      exact ⟨hbuf, 0, by simp [utf8s]⟩
    split at h
    · exact nomatch h
    rename_i hfits
    obtain ⟨hlen, n, hn⟩ := ih (by rw [List.length_append]; omega) h
    refine ⟨hlen, n + 1, ?_⟩
    rw [hn, List.take_succ_cons, utf8s, utf8s, List.flatMap_cons, utf8, henc, Option.getD_some,
      List.append_assoc]

/-- Every character of up to 21 bits is encoded in one to four bytes. -/
theorem encodeChar_some {c : Nat} (hc : c ≤ 0x1FFFFF) :
    ∃ bytes, encodeChar c = some bytes ∧ 1 ≤ bytes.length ∧ bytes.length ≤ 4 := by
  rcases encodeChar_cases (show c < 1 <<< 21 by rw [Nat.shiftLeft_eq]; omega) with
    ⟨-, henc⟩ | ⟨_, _, -, -, -, henc⟩ | ⟨_, _, _, -, -, -, -, henc⟩ |
    ⟨_, _, _, _, -, -, -, -, -, henc⟩
  all_goals exact ⟨_, henc, by simp, by simp⟩

/-- A string that fits the buffer is encoded as a whole. -/
theorem unicodeToAnsiLoop_fits (hsize : bufSize < 2 ^ 64)
    (hchars : ∀ c ∈ chars, c.toNat ≤ 0x1FFFFF) :
    ∀ {buf : List Byte}, (buf ++ utf8s chars).length ≤ bufSize →
      (buf ++ utf8s chars).length ≤ INT_MAX →
      unicodeToAnsiLoop bufSize chars buf = .ok ⟨buf ++ utf8s chars, true⟩ := by
  induction chars with
  | nil =>
    intro buf _ _
    simp [unicodeToAnsiLoop, utf8s]
  | cons c chars ih =>
    intro buf hfits hint
    have hle := hchars c List.mem_cons_self
    obtain ⟨bytes, henc, hone, hfour⟩ := encodeChar_some hle
    have hcons : buf ++ utf8s (c :: chars) = buf ++ bytes ++ utf8s chars := by
      rw [utf8s, List.flatMap_cons, utf8, henc, Option.getD_some, List.append_assoc]
      rfl
    rw [hcons] at hfits hint ⊢
    have hlen : (buf ++ bytes ++ utf8s chars).length
        = buf.length + bytes.length + (utf8s chars).length := by
      rw [List.length_append, List.length_append]
    have hguard : ¬sizeSub bufSize (bytes.length - 1) ≤ buf.length := by
      rw [sizeSub]
      omega
    rw [unicodeToAnsiLoop, henc]
    dsimp only
    rw [if_neg hguard, if_neg (by omega)]
    exact ih (fun c hc => hchars c (List.mem_cons_of_mem _ hc)) hfits hint

/-- The encoded text has a byte for every character at least. -/
theorem length_le_utf8s (hchars : ∀ c ∈ chars, c.toNat ≤ 0x1FFFFF) :
    chars.length ≤ (utf8s chars).length := by
  induction chars with
  | nil => exact Nat.zero_le _
  | cons c chars ih =>
    obtain ⟨bytes, henc, hone, -⟩ := encodeChar_some (hchars c List.mem_cons_self)
    have hrest := ih fun c hc => hchars c (List.mem_cons_of_mem _ hc)
    have hcons : utf8s (c :: chars) = bytes ++ utf8s chars := by
      rw [utf8s, List.flatMap_cons, utf8, henc, Option.getD_some]
      rfl
    rw [hcons, List.length_append, List.length_cons]
    omega

end Encode

/-! ### Both -/

/-- Which strings come back. -/
theorem round_trip_iff (w : WideString) (len bufSize bufCount : UInt64)
    (hlen : SIZEOF_WCHAR * w.chars.length ≤ len.toNat)
    (hsize : (utf8s w.chars).length ≤ bufSize.toNat) :
    RoundTrip w.chars len bufSize bufCount ↔
      w.chars ≠ [] ∧ (∀ c ∈ w.chars, c.toNat < 0x10000) ∧ (utf8s w.chars).length ≤ INT_MAX ∧
        (w.chars.length : Int) ≤ toInt32 (bufCount.toNat / SIZEOF_WCHAR) := by
  have hupper : ∀ c ∈ w.chars, c.toNat ≤ 0x1FFFFF := fun c hc => (w.range c hc).2
  constructor
  · rintro ⟨bytes, henc, hdec⟩
    obtain ⟨hint, n, hn⟩ := unicodeToAnsiLoop_ok (Nat.zero_le _) henc
    rw [List.nil_append, List.take_take] at hn
    obtain ⟨k, hk⟩ : ∃ k, bytes = utf8s (w.chars.take k) := ⟨_, hn⟩
    have hnonempty : bytes.length ≠ 0 := by
      intro hzero
      rw [pjAnsiToUnicode, if_pos hzero] at hdec
      exact nomatch (Filled.mk.inj (Except.ok.inj hdec)).2
    rw [pjAnsiToUnicode, if_neg hnonempty, hk] at hdec
    obtain ⟨hle, hwlen, hall⟩ := ansiToUnicodeLoop_bound
      (fun c hc => w.range c (List.mem_of_mem_take hc)) hdec
    dsimp only at hint hle hwlen hall
    -- As many characters came back as there were, so none was left out.
    have htake : w.chars.take k = w.chars := by
      refine List.take_of_length_le ?_
      rw [List.length_take, List.length_nil] at hle
      omega
    rw [htake] at hk hall
    have hne : w.chars ≠ [] := by
      intro hnil
      rw [hk, hnil] at hnonempty
      exact hnonempty rfl
    have hpos := List.length_pos_iff.mpr hne
    rw [List.length_nil] at hwlen hall
    exact ⟨hne, hall (Nat.zero_add _).symm, hk ▸ hint, by omega⟩
  · rintro ⟨hne, hchars, hint, hwlen⟩
    have hshort := length_le_utf8s hupper
    have hwlen' : sizeOfInt (toInt32 w.chars.length) = w.chars.length := by
      rw [INT_MAX] at hint
      rw [toInt32_of_lt (by omega), sizeOfInt]
      omega
    have hall : (if len.toNat / SIZEOF_WCHAR < w.chars.length then len.toNat / SIZEOF_WCHAR
        else w.chars.length) = w.chars.length := by
      rw [SIZEOF_WCHAR] at hlen ⊢
      rw [if_neg (by omega)]
    refine ⟨utf8s w.chars, ?_, ?_⟩
    · rw [pjUnicodeToAnsi, hwlen', hall, List.take_length]
      exact unicodeToAnsiLoop_fits bufSize.toNat_lt hupper hsize hint
    · have hpos := List.length_pos_iff.mpr hne
      rw [pjAnsiToUnicode, if_neg (by omega)]
      refine ansiToUnicodeLoop_chars ?_ (fun _ => w.noMark) (by simpa using hwlen)
      intro c hc
      refine ⟨?_, hchars c hc⟩
      rintro rfl
      exact absurd (w.range 0 hc).1 (by decide)

/-- The string of U+20AC, the Euro sign, comes back. -/
theorem round_trip_iff_euro : RoundTrip [0x20AC] 4 3 4 :=
  (round_trip_iff ⟨[0x20AC], List.forall_mem_singleton.mpr (by decide), by decide⟩ 4 3 4
    (by decide) (by decide)).mpr
    ⟨by decide, List.forall_mem_singleton.mpr (by decide), by decide, by decide⟩

/-- U+1F600 has four bytes, and the decoder fails on them. -/
theorem four_bytes_fail :
    pjUnicodeToAnsi [0x1F600] 4 5 = .ok ⟨[0xf0, 0x9f, 0x98, 0x80], true⟩ ∧
      pjAnsiToUnicode [0xf0, 0x9f, 0x98, 0x80] 8 = .error .assertFailed ∧
      ¬RoundTrip [0x1F600] 4 5 8 := by
  have henc : pjUnicodeToAnsi [0x1F600] 4 5 = .ok ⟨[0xf0, 0x9f, 0x98, 0x80], true⟩ := by
    decide
  have hdec : pjAnsiToUnicode [0xf0, 0x9f, 0x98, 0x80] 8 = .error .assertFailed := by
    decide
  refine ⟨henc, hdec, ?_⟩
  rintro ⟨bytes, henc', hdec'⟩
  rw [henc] at henc'
  rw [← (Filled.mk.inj (Except.ok.inj henc')).1, hdec] at hdec'
  exact nomatch hdec'

end LearnGit.Proofs.WideChar
