import LearnGit.Proofs.WideChar.PhoneCommon
import LearnGit.WideChar.LanStrings

/-!
# `LearnGit.Proofs.WideChar.LanStrings`: which characters the list of a language has

`complete_iff`: the list has every character above 0x7e of the strings exactly when there is
none. `main` passes the number of characters where a number of bytes is asked for, so the last
of the collected characters is never written.

`Collected` is what holds of `text` after each string. A character occurs in the list when its
bytes do, and those are found only where the character was written (`mem_of_infix_utf8s`),
because no first byte looks like a later one.
-/

set_option autoImplicit false

namespace LearnGit.Proofs.WideChar

open LearnGit.Lib
open LearnGit.WideChar

/-! ### Statement -/

/-- Every character above 0x7e of a string that was written is in the list. -/
def Complete (r : LanResult) : Prop :=
  ∀ line ∈ r.state.lines, ∀ c ∈ line.value, 0x7e < c → utf8 c <:+: r.charFile

/-- No string of these names has a character above 0x7e. -/
def PlainStrings (names : List Name) (lang : Language) : Prop :=
  ∀ name ∈ names, ∀ data value, lang.findchild name = some data →
    strValue data = .ok (some value) → ∀ c ∈ value, ¬0x7e < c

/-! ### The bytes of a character in a text -/

/-- Two characters that are read back are the same when one is the front of the other. -/
theorem utf8_prefix_eq {c d : WChar} (hc : c ≠ 0 ∧ c.toNat < 0x10000)
    (hd : d ≠ 0 ∧ d.toNat < 0x10000) {rest : List Byte} (h : utf8 c <+: utf8 d ++ rest) :
    c = d := by
  obtain ⟨after, hafter⟩ := h
  -- Decode both, behind another character so that no mark is skipped.
  have hdecode : ∀ e : WChar, e ≠ 0 ∧ e.toNat < 0x10000 → ∀ bytes,
      ansiToUnicodeLoop 2 (utf8 e ++ bytes) [0] = .ok ⟨[0, e], true⟩ := by
    intro e he bytes
    rw [ansiToUnicodeLoop_char he.1 he.2 (by decide), if_neg (by simp)]
    exact ansiToUnicodeLoop_full (by simp) bytes
  have heq := hdecode c hc after
  rw [hafter, hdecode d hd rest] at heq
  simpa using (Filled.mk.inj (Except.ok.inj heq)).1.symm

/-- No leading byte looks like a following one. -/
theorem lead_mark_table :
    (∀ h : Fin 128, UInt8.ofNat h.val &&& 0xc0 ≠ 0x80) ∧
      (∀ h : Fin 32, lead 0xc0 h.val &&& 0xc0 ≠ 0x80) ∧
      (∀ h : Fin 16, lead 0xe0 h.val &&& 0xc0 ≠ 0x80) := by
  decide

/-- A first byte is not marked as a later one, and the others are. -/
theorem utf8_shape {c : WChar} (hc : c.toNat < 0x10000) :
    ∃ b bs, utf8 c = b :: bs ∧ b &&& 0xc0 ≠ 0x80 ∧ ∀ x ∈ bs, x &&& 0xc0 = 0x80 := by
  obtain ⟨hone, htwo, hthree⟩ := lead_mark_table
  rcases encodeChar_cases (show c.toNat < 1 <<< 21 by rw [Nat.shiftLeft_eq]; omega) with
    ⟨h₁, henc⟩ | ⟨h, l, hh, hl, -, henc⟩ | ⟨h, m, l, hh, hm, hl, -, henc⟩ |
    ⟨_, _, _, _, -, -, -, -, hge, -⟩
  · exact ⟨_, [], by rw [utf8, henc]; rfl, hone ⟨c.toNat, h₁⟩, by simp⟩
  · refine ⟨_, [tail l], by rw [utf8, henc]; rfl, htwo ⟨h, hh⟩, ?_⟩
    intro x hx
    rw [List.mem_singleton.mp hx]
    exact (tail_table ⟨l, hl⟩).2
  · refine ⟨_, [tail m, tail l], by rw [utf8, henc]; rfl, hthree ⟨h, hh⟩, ?_⟩
    intro x hx
    simp only [List.mem_cons, List.not_mem_nil, or_false] at hx
    rcases hx with rfl | rfl
    · exact (tail_table ⟨m, hm⟩).2
    · exact (tail_table ⟨l, hl⟩).2
  · omega

/-- The bytes of a character are not found among later bytes. -/
theorem infix_of_infix_tails {b : Byte} (hb : b &&& 0xc0 ≠ 0x80) {bs tails rest : List Byte}
    (htails : ∀ x ∈ tails, x &&& 0xc0 = 0x80) (h : b :: bs <:+: tails ++ rest) :
    b :: bs <:+: rest := by
  induction tails with
  | nil => exact h
  | cons x tails ih =>
    rw [List.cons_append, List.infix_cons_iff] at h
    rcases h with h | h
    · have heq : b = x := (List.cons_prefix_cons.mp h).1
      exact absurd (htails x List.mem_cons_self) (heq ▸ hb)
    · exact ih (fun x hx => htails x (List.mem_cons_of_mem _ hx)) h

/-- The bytes of a character are found only where it was written. -/
theorem mem_of_infix_utf8s {c : WChar} (hc : c ≠ 0 ∧ c.toNat < 0x10000) {chars : List WChar}
    (hchars : ∀ d ∈ chars, d ≠ 0 ∧ d.toNat < 0x10000) (h : utf8 c <:+: utf8s chars) :
    c ∈ chars := by
  obtain ⟨b, bs, hbytes, hb, -⟩ := utf8_shape hc.2
  induction chars with
  | nil =>
    rw [hbytes] at h
    exact nomatch List.infix_nil.mp h
  | cons d chars ih =>
    have hd := hchars d List.mem_cons_self
    obtain ⟨b', tails, hbytes', -, htails⟩ := utf8_shape hd.2
    have hcons : utf8s (d :: chars) = b' :: (tails ++ utf8s chars) := by
      rw [utf8s, List.flatMap_cons, hbytes']
      rfl
    rw [hcons, List.infix_cons_iff] at h
    rcases h with h | h
    · rw [← List.cons_append, ← hbytes'] at h
      rw [utf8_prefix_eq hc hd h]
      exact List.mem_cons_self
    · rw [hbytes] at h
      have hrest := infix_of_infix_tails hb htails h
      rw [← hbytes] at hrest
      exact List.mem_cons_of_mem _ (ih (fun d hd => hchars d (List.mem_cons_of_mem _ hd)) hrest)

/-! ### Decoded characters -/

/-- Two bytes give a character below 2^16. -/
theorem value2_lt (b b₁ : Byte) : value2 b b₁ < 0x10000 := by
  have h₁ := Nat.and_le_right (n := b.toNat) (m := 0x1f)
  have h₂ := Nat.and_le_right (n := b₁.toNat) (m := 0x3f)
  rw [value2, shiftLeft_or (by omega)]
  omega

/-- Three bytes give a character below 2^16. -/
theorem value3_lt (b b₁ b₂ : Byte) : value3 b b₁ b₂ < 0x10000 := by
  have h₁ := Nat.and_le_right (n := b.toNat) (m := 0x0f)
  have h₂ := Nat.and_le_right (n := b₁.toNat) (m := 0x3f)
  have h₃ := Nat.and_le_right (n := b₂.toNat) (m := 0x3f)
  rw [value3, Nat.or_assoc, shiftLeft_or (k := 6) (by omega), shiftLeft_or (by omega)]
  omega

/-- All characters are below 0x10000. -/
def Narrow (chars : List WChar) : Prop := ∀ c ∈ chars, c.toNat < 0x10000

/-- A narrow character keeps the characters narrow. -/
theorem Narrow.snoc {chars : List WChar} (h : Narrow chars) {n : Nat} (hn : n < 0x10000) :
    Narrow (chars ++ [UInt32.ofNat n]) := by
  intro c hc
  rcases List.mem_append.mp hc with hc | hc
  · exact h c hc
  · rw [List.mem_singleton.mp hc, UInt32.toNat_ofNat_of_lt' (by rw [UInt32.size]; omega)]
    exact hn

/-- The decoder writes characters below 0x10000 only. -/
theorem ansiToUnicodeLoop_narrow (wlen : Int) (bytes : List Byte) (outbuf : List WChar) :
    ∀ {r : Filled WChar}, Narrow outbuf → ansiToUnicodeLoop wlen bytes outbuf = .ok r →
      Narrow r.buf := by
  fun_induction ansiToUnicodeLoop wlen bytes outbuf with
  | case1 | case2 | case3 | case14 =>
    intro r hout h
    rw [← Except.ok.inj h]
    exact hout
  | case4 b rest outbuf _ _ _ ih =>
    intro r hout h
    have hb := b.toNat_lt
    exact ih (hout.snoc (by omega)) h
  | case5 b outbuf _ _ _ _ b₁ rest ih =>
    intro r hout h
    exact ih (hout.snoc (value2_lt b b₁)) h
  | case6 | case9 | case13 =>
    -- A character that is cut off is written as a question mark.
    intro r hout h
    rw [← Except.ok.inj h]
    exact hout.snoc (show 0x3f < 0x10000 by decide)
  | case7 b outbuf _ _ _ _ _ b₁ b₂ rest _ ih =>
    intro r hout h
    exact ih hout h
  | case8 b outbuf _ _ _ _ _ b₁ b₂ rest _ ih =>
    intro r hout h
    exact ih (hout.snoc (value3_lt b b₁ b₂)) h
  | case10 | case12 =>
    intro r hout h
    exact nomatch h
  | case11 b outbuf _ _ _ _ _ _ b₁ b₂ b₃ rest value _ wide hwide =>
    exact nomatch hwide

/-- The characters of a string are narrow and none of them is the end. -/
theorem strValue_narrow {data : Option (List Byte)} {value : List WChar}
    (h : strValue data = .ok (some value)) : ∀ c ∈ value, c ≠ 0 ∧ c.toNat < 0x10000 := by
  cases data with
  | none =>
    rw [← Option.some.inj (Except.ok.inj h)]
    simp
  | some data =>
    simp only [strValue] at h
    split at h
    · exact nomatch h
    split at h
    · exact nomatch h
    split at h
    · exact nomatch h
    split at h
    · exact nomatch h
    rename_i r hr
    have hnarrow : Narrow r.buf := by
      rw [pjAnsiToUnicode] at hr
      split at hr
      · rw [← Except.ok.inj hr]
        simp [Narrow]
      · exact ansiToUnicodeLoop_narrow _ _ _ (by simp [Narrow]) hr
    rw [← Option.some.inj (Except.ok.inj h)]
    intro c hc
    refine ⟨?_, hnarrow c ((List.takeWhile_prefix _).subset hc)⟩
    simpa using List.mem_takeWhile_imp hc

/-! ### Collecting -/

/-- What `text` holds after characters of `src` were collected. -/
structure Collects (text : List WChar) (src : List WChar) (text' : List WChar) : Prop where
  nodup : text.Nodup → text'.Nodup
  short : text.length ≤ 1023 → text'.length ≤ 1023
  kept : text <+: text'
  mem : ∀ c ∈ text', c ∈ text ∨ (c ∈ src ∧ 0x7e < c)
  some_of_high : (∃ c ∈ src, isHigh c) → text' ≠ []

/-- Text that stays as it is may have met any characters, if it is not empty where one is high. -/
theorem Collects.refl {text src : List WChar}
    (h : (∃ c ∈ src, isHigh c) → text ≠ []) : Collects text src text where
  nodup := id
  short := id
  kept := List.prefix_rfl
  mem := fun _ hc => Or.inl hc
  some_of_high := h

/-- Collecting two texts one after the other is collecting both. -/
theorem Collects.trans {text text' text'' src src' : List WChar} (h : Collects text src text')
    (h' : Collects text' src' text'') : Collects text (src ++ src') text'' where
  nodup := fun hn => h'.nodup (h.nodup hn)
  short := fun hs => h'.short (h.short hs)
  kept := h.kept.trans h'.kept
  mem := by
    intro c hc
    rcases h'.mem c hc with hc | ⟨hc, hhigh⟩
    · rcases h.mem c hc with hc | ⟨hc, hhigh⟩
      · exact Or.inl hc
      · exact Or.inr ⟨List.mem_append_left _ hc, hhigh⟩
    · exact Or.inr ⟨List.mem_append_right _ hc, hhigh⟩
  some_of_high := by
    rintro ⟨c, hc, hhigh⟩
    rcases List.mem_append.mp hc with hc | hc
    · intro hnil
      have hfront := h'.kept
      rw [hnil] at hfront
      exact h.some_of_high ⟨c, hc, hhigh⟩ (List.prefix_nil.mp hfront)
    · exact h'.some_of_high ⟨c, hc, hhigh⟩

/-- A high character is collected. -/
theorem collectChar_collects (s : LanState) {ch : WChar} (hch : 0x7e < ch) :
    Collects s.text [ch] (collectChar s ch).text := by
  rw [collectChar]
  split
  · -- The array is full, so it is not empty.
    rename_i hlong
    refine Collects.refl fun _ hnil => ?_
    rw [hnil] at hlong
    exact absurd hlong (by decide)
  split
  · rename_i hmem
    exact Collects.refl fun _ => List.ne_nil_of_mem hmem
  · rename_i hroom hnew
    refine ⟨?_, ?_, List.prefix_append _ _, ?_, fun _ => by simp⟩
    · intro hn
      rw [List.nodup_append]
      refine ⟨hn, by simp, ?_⟩
      rintro a ha b hb rfl
      exact hnew (List.mem_singleton.mp hb ▸ ha)
    · intro _
      rw [List.length_append, List.length_singleton]
      omega
    · intro c hc
      rcases List.mem_append.mp hc with hc | hc
      · exact Or.inl hc
      · exact Or.inr ⟨hc, List.mem_singleton.mp hc ▸ hch⟩

/-- Collecting writes no file. -/
structure SameFiles (s s' : LanState) : Prop where
  lines : s'.lines = s.lines
  arrFile : s'.arrFile = s.arrFile
  idCount : s'.idCount = s.idCount

/-- Collecting a character writes no file. -/
theorem collectChar_sameFiles (s : LanState) (ch : WChar) : SameFiles s (collectChar s ch) := by
  rw [collectChar]
  split
  · exact ⟨rfl, rfl, rfl⟩
  split
  · exact ⟨rfl, rfl, rfl⟩
  · exact ⟨rfl, rfl, rfl⟩

/-- What `make_wchar_to_hex_string` returns. -/
theorem makeWcharToHexString_ok (src : List WChar) :
    ∀ {s s' : LanState} {dest hex : List Byte},
      makeWcharToHexString s src dest = .ok (hex, s') →
      hex = dest ++ src.flatMap hexItem ∧ Collects s.text src s'.text ∧ SameFiles s s' := by
  induction src with
  | nil =>
    intro s s' dest hex h
    obtain ⟨rfl, rfl⟩ := Prod.mk.inj (Except.ok.inj h)
    exact ⟨by simp, Collects.refl (by simp), rfl, rfl, rfl⟩
  | cons c src ih =>
    intro s s' dest hex h
    rw [makeWcharToHexString] at h
    split at h
    · exact nomatch h
    obtain ⟨hhex, hcollects, hfiles⟩ := ih h
    rw [List.append_assoc] at hhex
    refine ⟨hhex, ?_, ?_⟩
    · have hstep : Collects s.text [c] (if isHigh c then collectChar s c else s).text := by
        split
        · rename_i hhigh
          exact collectChar_collects s hhigh.1
        · rename_i hlow
          refine Collects.refl ?_
          rintro ⟨d, hd, hhigh⟩
          exact absurd (List.mem_singleton.mp hd ▸ hhigh) hlow
      exact hstep.trans hcollects
    · have hstep : SameFiles s (if isHigh c then collectChar s c else s) := by
        split
        · exact collectChar_sameFiles s c
        · exact ⟨rfl, rfl, rfl⟩
      exact ⟨hfiles.lines.trans hstep.lines, hfiles.arrFile.trans hstep.arrFile,
        hfiles.idCount.trans hstep.idCount⟩

/-! ### The run -/

/-- What holds of the state after each string. -/
structure Collected (s : LanState) : Prop where
  nodup : s.text.Nodup
  short : s.text.length ≤ 1023
  mem : ∀ c ∈ s.text, 0x7e < c ∧ c.toNat < 0x10000 ∧ ∃ line ∈ s.lines, c ∈ line.value
  some_of_high : (∃ line ∈ s.lines, ∃ c ∈ line.value, 0x7e < c) → s.text ≠ []

/-- What writing an entry does: its characters are collected, its line is noted and its text is
behind the file. -/
theorem writeLines_ok {s s' : LanState} {name : Name} {value : List WChar}
    (h : writeLines s name value = .ok s') :
    Collects s.text value s'.text ∧ s'.lines = s.lines ++ [⟨name, value⟩] ∧
      ∃ hexValue s₁, makeWcharToHexString s value [] = .ok (hexValue, s₁) ∧
        (arrLine name hexValue).length < BUFFER ∧
        s'.arrFile = s.arrFile ++ arrLine name hexValue := by
  rw [writeLines] at h
  split at h
  · exact nomatch h
  rename_i hexValue s₁ hhex
  obtain ⟨-, hcollects, hfiles⟩ := makeWcharToHexString_ok value hhex
  split at h
  · exact nomatch h
  · rename_i hfits
    rw [← Except.ok.inj h, ← hfiles.lines, ← hfiles.arrFile]
    exact ⟨hcollects, rfl, hexValue, s₁, hhex, by omega, rfl⟩

/-- Writing an entry keeps the text the collected characters of the lines. -/
theorem Collected.writeLines {s s' : LanState} {name : Name} {value : List WChar}
    (hs : Collected s) (hvalue : ∀ c ∈ value, c.toNat < 0x10000)
    (h : writeLines s name value = .ok s') : Collected s' := by
  obtain ⟨hcollects, hlines, -⟩ := writeLines_ok h
  refine ⟨hcollects.nodup hs.nodup, hcollects.short hs.short, ?_, ?_⟩
  · intro c hc
    rcases hcollects.mem c hc with hc | ⟨hc, hhigh⟩
    · obtain ⟨hhigh, hlt, line, hline, hmem⟩ := hs.mem c hc
      exact ⟨hhigh, hlt, line, hlines ▸ List.mem_append_left _ hline, hmem⟩
    · exact ⟨hhigh, hvalue c hc, ⟨name, value⟩, by simp [hlines], hc⟩
  · rintro ⟨line, hline, c, hc, hhigh⟩
    rw [hlines] at hline
    rcases List.mem_append.mp hline with hline | hline
    · intro hnil
      have hfront := hcollects.kept
      rw [hnil] at hfront
      exact hs.some_of_high ⟨line, hline, c, hc, hhigh⟩ (List.prefix_nil.mp hfront)
    · rw [List.mem_singleton.mp hline] at hc
      have hlt := hvalue c hc
      exact hcollects.some_of_high ⟨c, hc, hhigh, by omega⟩

/-- The strings of these names are written one after the other. -/
inductive Writes (lang : Language) : List Name → LanState → LanState → Prop where
  | nil (s : LanState) : Writes lang [] s s
  | cons {name : Name} {names : List Name} {data : Option (List Byte)} {value : List WChar}
      {s s₁ s' : LanState} :
      lang.findchild name = some data → strValue data = .ok (some value) →
      writeLines s name value = .ok s₁ → Writes lang names s₁ s' →
      Writes lang (name :: names) s s'

/-- One call of `_language_get_strings` writes a string or returns an error. -/
theorem languageGetStrings_cases {lang : Language} {s s' : LanState} {name : Name} {ret : Int}
    (h : languageGetStrings lang s name = .ok (ret, s')) :
    (ret = -1 ∧ s' = s) ∨
    (ret = 0 ∧ ∃ data value, lang.findchild name = some data ∧
      strValue data = .ok (some value) ∧ writeLines s name value = .ok s') := by
  rw [languageGetStrings] at h
  split at h
  · obtain ⟨rfl, rfl⟩ := Prod.mk.inj (Except.ok.inj h)
    exact Or.inl ⟨rfl, rfl⟩
  rename_i data hchild
  split at h
  · exact nomatch h
  · obtain ⟨rfl, rfl⟩ := Prod.mk.inj (Except.ok.inj h)
    exact Or.inl ⟨rfl, rfl⟩
  rename_i value hvalue
  split at h
  · exact nomatch h
  rename_i s₁ hwrite
  obtain ⟨rfl, rfl⟩ := Prod.mk.inj (Except.ok.inj h)
  exact Or.inr ⟨rfl, data, value, hchild, hvalue, hwrite⟩

/-- The calls write the strings up to the first error. -/
theorem loadStrings_writes {lang : Language} (names : List Name) :
    ∀ {s s' : LanState} {ret : Int}, loadStrings lang names s = .ok (ret, s') →
      ∃ done, done <+: names ∧ Writes lang done s s' ∧ (ret = 0 → done = names) := by
  induction names with
  | nil =>
    intro s s' ret h
    obtain ⟨rfl, rfl⟩ := Prod.mk.inj (Except.ok.inj h)
    exact ⟨[], List.prefix_rfl, Writes.nil s, fun _ => rfl⟩
  | cons name names ih =>
    intro s s' ret h
    rw [loadStrings] at h
    split at h
    · exact nomatch h
    rename_i ret₁ s₁ hget
    rcases languageGetStrings_cases hget with
      ⟨rfl, rfl⟩ | ⟨rfl, data, value, hchild, hvalue, hwrite⟩
    · obtain ⟨rfl, rfl⟩ := Prod.mk.inj (Except.ok.inj h)
      exact ⟨[], List.nil_prefix, Writes.nil _, fun hret => absurd hret (by decide)⟩
    · obtain ⟨done, hdone, hwrites, hall⟩ := ih h
      refine ⟨name :: done, List.cons_prefix_cons.mpr ⟨rfl, hdone⟩,
        Writes.cons hchild hvalue hwrite hwrites, ?_⟩
      intro hret
      rw [hall hret]

/-- Writing a language keeps the text the collected characters of the lines. -/
theorem Writes.collected {lang : Language} {names : List Name} {s s' : LanState}
    (h : Writes lang names s s') (hs : Collected s) : Collected s' := by
  induction h with
  | nil s => exact hs
  | cons hchild hvalue hwrite _ ih =>
    exact ih (hs.writeLines (fun c hc => (strValue_narrow hvalue c hc).2) hwrite)

/-- The strings of the names are the ones that were written. -/
theorem Writes.plainStrings_iff {lang : Language} {names : List Name} {s s' : LanState}
    (h : Writes lang names s s') :
    (∀ line ∈ s'.lines, ∀ c ∈ line.value, ¬0x7e < c) ↔
      (∀ line ∈ s.lines, ∀ c ∈ line.value, ¬0x7e < c) ∧ PlainStrings names lang := by
  induction h with
  | nil s => exact ⟨fun h => ⟨h, fun _ hname => (nomatch hname)⟩, fun h => h.1⟩
  | cons hchild hvalue hwrite _ ih =>
    rename_i name names data value s s₁ s' _
    have hsplit : PlainStrings (name :: names) lang
        ↔ (∀ c ∈ value, ¬0x7e < c) ∧ PlainStrings names lang := by
      constructor
      · intro hplain
        exact ⟨hplain name List.mem_cons_self data value hchild hvalue,
          fun name' hname' => hplain name' (List.mem_cons_of_mem _ hname')⟩
      · rintro ⟨hline, hplain⟩ name' hname' data' value' hchild' hvalue'
        rcases List.mem_cons.mp hname' with rfl | hname'
        · rw [hchild] at hchild'
          rw [← Option.some.inj hchild', hvalue] at hvalue'
          rw [← Option.some.inj (Except.ok.inj hvalue')]
          exact hline
        · exact hplain name' hname' data' value' hchild' hvalue'
    rw [ih, (writeLines_ok hwrite).2.1, hsplit, List.forall_mem_append, List.forall_mem_singleton,
      and_assoc]

/-- A narrow character takes four bytes at most. -/
theorem utf8s_length_le {chars : List WChar} (hchars : ∀ c ∈ chars, c.toNat < 0x10000) :
    (utf8s chars).length ≤ 4 * chars.length := by
  induction chars with
  | nil => exact Nat.zero_le _
  | cons c chars ih =>
    have hc := hchars c List.mem_cons_self
    obtain ⟨bytes, henc, -, hfour⟩ := encodeChar_some (show c.toNat ≤ 0x1FFFFF by omega)
    have hrest := ih fun c hc => hchars c (List.mem_cons_of_mem _ hc)
    have hcons : utf8s (c :: chars) = bytes ++ utf8s chars := by
      rw [utf8s, List.flatMap_cons, utf8, henc, Option.getD_some]
      rfl
    rw [hcons, List.length_append, List.length_cons]
    omega

/-- A quarter of the collected characters is encoded. -/
theorem Collected.encode {s : LanState} (hs : Collected s) :
    pjUnicodeToAnsi s.text (UInt64.ofNat s.text.length) COLLECT_TEXT
      = .ok ⟨utf8s (s.text.take (s.text.length / 4)), true⟩ := by
  have hshort := hs.short
  have hnarrow : ∀ c ∈ s.text.take (s.text.length / 4), c.toNat < 0x10000 :=
    fun c hc => (hs.mem c (List.mem_of_mem_take hc)).2.1
  have hlen : (UInt64.ofNat s.text.length).toNat = s.text.length :=
    UInt64.toNat_ofNat_of_lt' (by rw [UInt64.size]; omega)
  have hwlen : sizeOfInt (toInt32 s.text.length) = s.text.length := by
    rw [toInt32_of_lt (by omega), sizeOfInt]
    omega
  -- The number of characters is divided by `sizeof(wchar_t)`, as if it were one of bytes.
  have hchars : (if s.text.length / SIZEOF_WCHAR < s.text.length
      then s.text.length / SIZEOF_WCHAR else s.text.length) = s.text.length / 4 := by
    rw [SIZEOF_WCHAR]
    split
    · rfl
    · omega
  have hbytes := utf8s_length_le hnarrow
  rw [List.length_take] at hbytes
  rw [pjUnicodeToAnsi, hlen, hwlen, hchars]
  refine unicodeToAnsiLoop_fits COLLECT_TEXT.toNat_lt (fun c hc => ?_) ?_ ?_
  · have hlt := hnarrow c hc
    omega
  · show (utf8s _).length ≤ 3000
    omega
  · rw [List.nil_append, INT_MAX]
    omega

/-- The list is complete exactly when nothing was collected. -/
theorem Collected.complete_iff_text {s : LanState} (hs : Collected s) (ret : Int) :
    Complete ⟨ret, s, cStr (utf8s (s.text.take (s.text.length / 4)))⟩ ↔ s.text = [] := by
  constructor
  · -- The character that was collected last is above 0x7e, and it was not encoded.
    intro hcomplete
    by_contra hne
    obtain ⟨front, c, htext⟩ := (List.eq_nil_or_concat s.text).resolve_left hne
    rw [List.concat_eq_append] at htext
    have hmem : c ∈ s.text := by simp [htext]
    obtain ⟨hhigh, hlt, line, hline, hc⟩ := hs.mem c hmem
    have hread : ∀ d ∈ s.text, d ≠ 0 ∧ d.toNat < 0x10000 := by
      intro d hd
      obtain ⟨hdhigh, hdlt, -⟩ := hs.mem d hd
      exact ⟨by rintro rfl; exact absurd hdhigh (by decide), hdlt⟩
    have hcut : cStr (utf8s (s.text.take (s.text.length / 4)))
        <:+: utf8s (s.text.take (s.text.length / 4)) := (List.takeWhile_prefix _).isInfix
    have hinfix := (hcomplete line hline c hc hhigh).trans hcut
    have hwritten := mem_of_infix_utf8s (hread c hmem)
      (fun d hd => hread d (List.mem_of_mem_take hd)) hinfix
    -- The last character is not among the first quarter.
    have hfront : c ∈ front := by
      rw [htext, List.length_append, List.length_singleton,
        List.take_append_of_le_length (by omega)] at hwritten
      exact List.mem_of_mem_take hwritten
    have hnodup := hs.nodup
    rw [htext, List.nodup_append] at hnodup
    exact hnodup.2.2 c hfront c (List.mem_singleton.mpr rfl) rfl
  · intro hnil line hline c hc hhigh
    exact absurd hnil (hs.some_of_high ⟨line, hline, c, hc, hhigh⟩)

/-- At the start nothing is collected and nothing is written. -/
theorem collected_init : Collected LanState.init := by
  refine ⟨List.nodup_nil, Nat.zero_le _, ?_, ?_⟩
  · intro c hc
    exact nomatch hc
  · rintro ⟨line, hline, -⟩
    exact nomatch hline

/-- What `main` leaves. -/
theorem lanStrings_writes {names : List Name} {lang : Language} {r : LanResult}
    (h : lanStrings names (some lang) = .ok r) :
    r = ⟨r.ret, r.state, cStr (utf8s (r.state.text.take (r.state.text.length / 4)))⟩ ∧
      ∃ done, done <+: names ∧ Writes lang done LanState.init r.state ∧
        (r.ret = 0 → done = names) := by
  rw [lanStrings] at h
  split at h
  · exact nomatch h
  rename_i ret s hload
  have hwrites : ∃ done, done <+: names ∧ Writes lang done LanState.init s ∧
      (ret = 0 → done = names) := by
    rw [phoneLoadLanguageStrings] at hload
    split at hload
    · obtain ⟨rfl, rfl⟩ := Prod.mk.inj (Except.ok.inj hload)
      exact ⟨[], List.nil_prefix, Writes.nil _, fun hret => absurd hret (by decide)⟩
    split at hload
    · obtain ⟨rfl, rfl⟩ := Prod.mk.inj (Except.ok.inj hload)
      exact ⟨[], List.nil_prefix, Writes.nil _, fun hret => absurd hret (by decide)⟩
    · exact loadStrings_writes names hload
  obtain ⟨done, hdone, hw, hall⟩ := hwrites
  rw [(hw.collected collected_init).encode] at h
  rw [← Except.ok.inj h]
  exact ⟨rfl, done, hdone, hw, hall⟩

/-- For a run that reports no error, the list of characters is complete exactly when no string
has a character above 0x7e. -/
theorem complete_iff {names : List Name} {lang : Language} {r : LanResult}
    (h : lanStrings names (some lang) = .ok r) (hret : r.ret = 0) :
    Complete r ↔ PlainStrings names lang := by
  obtain ⟨hr, done, -, hwrites, hall⟩ := lanStrings_writes h
  rw [hall hret] at hwrites
  have hs := hwrites.collected collected_init
  have hplain : PlainStrings names lang
      ↔ ∀ line ∈ r.state.lines, ∀ c ∈ line.value, ¬0x7e < c := by
    rw [hwrites.plainStrings_iff]
    exact ⟨fun h => ⟨fun _ hline => (nomatch hline), h⟩, fun h => h.2⟩
  rw [hr, hs.complete_iff_text, hplain]
  constructor
  · intro hnil line hline c hc hhigh
    exact hs.some_of_high ⟨line, hline, c, hc, hhigh⟩ hnil
  · intro hnone
    by_contra hne
    obtain ⟨c, text, htext⟩ := List.exists_cons_of_ne_nil hne
    obtain ⟨hhigh, -, line, hline, hc⟩ := hs.mem c (by simp [htext])
    exact hnone line hline c hc hhigh

/-- A language without other characters: every string is a `A`. -/
theorem complete_iff_plain : ∃ r,
    lanStrings [ascii "To"] (some ⟨true, true, fun _ => some (some [0x41])⟩) = .ok r ∧
      Complete r := by
  obtain ⟨r, hr, hret⟩ : ∃ r, lanStrings [ascii "To"]
      (some ⟨true, true, fun _ => some (some [0x41])⟩) = .ok r ∧ r.ret = 0 :=
    ⟨_, rfl, rfl⟩
  have hplain : strValue (some [0x41]) = .ok (some [0x41]) := by decide
  refine ⟨r, hr, (complete_iff hr hret).mpr ?_⟩
  rintro name - data value hchild hvalue
  rw [← Option.some.inj hchild, hplain] at hvalue
  rw [← Option.some.inj (Except.ok.inj hvalue)]
  exact List.forall_mem_singleton.mpr (by decide)

/-! ### A language with one accent -/

/-- Where the items fit into the buffer they are all appended. -/
theorem makeWcharToHexString_fits (src : List WChar) :
    ∀ {s : LanState} {dest : List Byte}, (dest ++ src.flatMap hexItem).length < BUFFER →
      ∃ s', makeWcharToHexString s src dest = .ok (dest ++ src.flatMap hexItem, s') := by
  induction src with
  | nil =>
    intro s dest _
    exact ⟨s, by simp [makeWcharToHexString]⟩
  | cons c src ih =>
    intro s dest hfits
    rw [List.flatMap_cons, ← List.append_assoc] at hfits ⊢
    obtain ⟨s', hs'⟩ := ih (s := if isHigh c then collectChar s c else s) hfits
    have hroom : ¬BUFFER ≤ (dest ++ hexItem c).length := by
      rw [List.length_append] at hfits
      omega
    refine ⟨s', ?_⟩
    rw [makeWcharToHexString, if_neg hroom]
    exact hs'

/-- A short string with a short name is written. -/
theorem writeLines_short {s : LanState} {name : Name} {value : List WChar}
    (hname : name.length ≤ 100) (hvalue : (value.flatMap hexItem).length ≤ 500)
    (hid : s.idCount < 16 ^ 8) :
    ∃ s', writeLines s name value = .ok s' ∧ s'.idCount = s.idCount + 1 := by
  obtain ⟨s₁, hs₁⟩ := makeWcharToHexString_fits value (s := s)
    (show ([] ++ value.flatMap hexItem).length < BUFFER by
      rw [List.nil_append, BUFFER]; omega)
  have hid₁ := (makeWcharToHexString_ok value hs₁).2.2.idCount
  have hdigits : (printNat 16 s₁.idCount).length ≤ 8 := by
    rw [printNat_length_le (by omega) (by omega), hid₁]
    exact hid
  have hfits : ¬(BUFFER ≤ (arrLine name ([] ++ value.flatMap hexItem)).length ∨
      BUFFER ≤ (defineLine name s₁.idCount).length ∨ BUFFER ≤ (idLine name).length) := by
    have hlens : (ascii "static const wchar_t str_").length = 25 ∧
        (ascii "[] = \x7b").length = 6 ∧ (ascii "0x0\x7d;\n").length = 6 ∧
        (ascii "#define ID_").length = 11 ∧ (ascii "    0x").length = 6 ∧
        (ascii "\n").length = 1 ∧ (ascii "\x7bID_").length = 4 ∧
        (ascii ", str_").length = 6 ∧ (ascii "\x7d,\n").length = 3 := by
      decide
    simp only [arrLine, defineLine, idLine, List.length_append, List.nil_append, BUFFER]
    omega
  rw [writeLines, hs₁]
  dsimp only
  rw [if_neg hfits]
  exact ⟨_, rfl, by rw [hid₁]⟩

/-- Short names and strings are all written. -/
theorem loadStrings_short {lang : Language} {value : List WChar}
    (hvalue : (value.flatMap hexItem).length ≤ 500) {data : Option (List Byte)}
    (hdata : strValue data = .ok (some value)) (hchild : ∀ name, lang.findchild name = some data)
    (names : List Name) (hnames : ∀ name ∈ names, name.length ≤ 100) :
    ∀ {s : LanState}, s.idCount + names.length ≤ 16 ^ 8 →
      ∃ s', loadStrings lang names s = .ok (0, s') := by
  induction names with
  | nil =>
    intro s _
    exact ⟨s, rfl⟩
  | cons name names ih =>
    intro s hid
    rw [List.length_cons] at hid
    obtain ⟨s₁, hs₁, hid₁⟩ := writeLines_short (s := s) (hnames name List.mem_cons_self) hvalue
      (by omega)
    obtain ⟨s', hs'⟩ := ih (fun name hname => hnames name (List.mem_cons_of_mem _ hname))
      (s := s₁) (by omega)
    refine ⟨s', ?_⟩
    rw [loadStrings, languageGetStrings, hchild]
    simp only [hdata, hs₁]
    exact hs'

/-- A language whose strings are all an e with an acute accent. -/
def accents : Language := ⟨true, true, fun _ => some (some [0xc3, 0xa9])⟩

/-- The accent is in every string, and not in the list. -/
theorem accents_incomplete {names : List Name} (hne : names ≠ [])
    (hnames : ∀ name ∈ names, name.length ≤ 100) (hcount : names.length ≤ 1000) :
    ∃ r, lanStrings names (some accents) = .ok r ∧ r.ret = 0 ∧ ¬Complete r := by
  have hvalue : strValue (some [0xc3, 0xa9]) = .ok (some [0xe9]) := by decide
  obtain ⟨s, hs⟩ := loadStrings_short (by decide) hvalue
    (fun name => show accents.findchild name = _ from rfl) names hnames
    (show LanState.init.idCount + names.length ≤ 16 ^ 8 by
      rw [show LanState.init.idCount = 0x1000 from rfl]; omega)
  have hload : phoneLoadLanguageStrings names (some accents) LanState.init = .ok (0, s) := hs
  obtain ⟨done, -, hwrites, hall⟩ := loadStrings_writes names hs
  rw [hall rfl] at hwrites
  have hcollected := hwrites.collected collected_init
  have hrun : lanStrings names (some accents)
      = .ok ⟨0, s, cStr (utf8s (s.text.take (s.text.length / 4)))⟩ := by
    rw [lanStrings, hload]
    dsimp only
    rw [hcollected.encode]
  refine ⟨_, hrun, rfl, ?_⟩
  rw [hcollected.complete_iff_text]
  refine hcollected.some_of_high ?_
  by_contra hnone
  have hplain : PlainStrings names accents := by
    refine (hwrites.plainStrings_iff.mp ?_).2
    intro line hline c hc hhigh
    exact hnone ⟨line, hline, c, hc, hhigh⟩
  obtain ⟨name, rest, rfl⟩ := List.exists_cons_of_ne_nil hne
  exact hplain name List.mem_cons_self _ _ rfl hvalue 0xe9 List.mem_cons_self (by decide)

/-- The strings of the program, all with an accent. -/
theorem accent_lost : ∃ r,
    lanStrings stringNames (some accents) = .ok r ∧ r.ret = 0 ∧ ¬Complete r :=
  accents_incomplete (by decide) (by decide +kernel) (by decide +kernel)

end LearnGit.Proofs.WideChar
