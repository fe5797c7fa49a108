import LearnGit.Lib.Checked
import LearnGit.Proofs.WideChar.LanStrings
import LearnGit.WideChar.HexToStr

/-!
# `LearnGit.Proofs.WideChar.HexToStr`: lines that are written are read back

`read_back_iff`: a line that `lan_strings` writes is read back by `hex_to_str` as its name and its
string, wherever it stands in a file of such lines, exactly when every character is below `2 ^ 31`.
It has to fit the buffer of `lan_strings`, and then has fewer numbers than `hex_to_str` splits it
into. The characters that `lan_strings` decodes are small, and `lanStrings_read_back` says that the
file of any run of it is read back.

The text between the parts of a line does not occur in them: no bracket in a name, no brace and
no newline in the numbers, no comma and no blank in one of them.
-/

set_option autoImplicit false

namespace LearnGit.Proofs.WideChar

open LearnGit.Lib
open LearnGit.WideChar

/-! ### Statement -/

/-- A letter, a digit or an underscore. -/
def identByte (b : Byte) : Bool :=
  (0x41 ≤ b && b ≤ 0x5a) || (0x61 ≤ b && b ≤ 0x7a) || (0x30 ≤ b && b ≤ 0x39) || b = 0x5f

/-- A string with its name, and the numbers that `make_wchar_to_hex_string` makes of it. The
line of it fits `str_content`. -/
structure Entry where
  name : Name
  value : List WChar
  hexValue : List Byte
  ident : ∀ b ∈ name, identByte b = true
  noNul : 0 ∉ value
  made : ∃ s s', makeWcharToHexString s value [] = .ok (hexValue, s')
  fits : (arrLine name hexValue).length < BUFFER

/-- The line of a string. -/
def Entry.line (e : Entry) : List Byte := arrLine e.name e.hexValue

/-- Every character of a string is one of an `int`. -/
def Small (value : List WChar) : Prop := ∀ c ∈ value, c.toNat < 2 ^ 31

instance (value : List WChar) : Decidable (Small value) :=
  List.decidableBAll (fun c : WChar => c.toNat < 2 ^ 31) value

/-- What is read of a line. -/
def Entry.pair (e : Entry) : Name × List WChar := (e.name, e.value)

/-! ### Bytes of a line -/

/-- A byte of a name is neither the end of a string or line nor the bracket that ends the name. -/
theorem identByte_ne : ∀ b : Byte, identByte b = true → b ≠ 0 ∧ b ≠ NEWLINE ∧ b ≠ BRACKET :=
  byte_forall (by decide +kernel)

/-- A byte of a number: a digit to the base 16 or the x. -/
def NumberByte (b : Byte) : Prop := (∃ d < 16, b = digitByte d) ∨ b = 0x78

/-- No hex digit is a separator or an end of the line. -/
theorem digitByte_number_table : ∀ d : Fin 16,
    digitByte d.val ≠ 0 ∧ digitByte d.val ≠ NEWLINE ∧ digitByte d.val ≠ BRACE ∧
      digitByte d.val ≠ 0x2c ∧ digitByte d.val ≠ 0x20 := by
  decide

/-- No byte of a number is a separator or an end of the line. -/
theorem NumberByte.ne {b : Byte} (h : NumberByte b) :
    b ≠ 0 ∧ b ≠ NEWLINE ∧ b ≠ BRACE ∧ b ≠ 0x2c ∧ b ≠ 0x20 := by
  rcases h with ⟨d, hd, rfl⟩ | rfl
  · exact digitByte_number_table ⟨d, hd⟩
  · decide

/-- The number of a character. -/
def numberText (c : WChar) : List Byte := 0x30 :: 0x78 :: printNat 16 c.toNat

/-- The text of a number is made of the digits and the `x` of its mark. -/
theorem numberByte_of_mem {c : WChar} {b : Byte} (h : b ∈ numberText c) : NumberByte b := by
  rcases List.mem_cons.mp h with rfl | h
  · exact Or.inl ⟨0, by omega, rfl⟩
  rcases List.mem_cons.mp h with rfl | h
  · exact Or.inr rfl
  · exact Or.inl (mem_printNat (by omega) _ b h)

/-- An item is the text of its number with a comma and a blank behind it. -/
theorem hexItem_eq (c : WChar) : hexItem c = numberText c ++ [0x2c, 0x20] := by
  have hfront : ascii "0x" = [0x30, 0x78] := by decide
  have hback : ascii ", " = [0x2c, 0x20] := by decide
  rw [hexItem, hfront, hback]
  rfl

/-- The text of a number has between three and ten bytes. -/
theorem numberText_length (c : WChar) : 3 ≤ (numberText c).length ∧ (numberText c).length ≤ 10 := by
  have hdigits : (printNat 16 c.toNat).length ≤ 8 :=
    (printNat_length_le (by omega) (by omega)).mpr c.toNat_lt
  have hpos := List.length_pos_iff.mpr (printNat_ne_nil 16 c.toNat)
  rw [numberText, List.length_cons, List.length_cons]
  omega

/-- The bytes of the numbers of a string. -/
theorem mem_hexText {value : List WChar} {b : Byte} (h : b ∈ value.flatMap hexItem) :
    b ≠ 0 ∧ b ≠ NEWLINE ∧ b ≠ BRACE := by
  obtain ⟨c, -, hb⟩ := List.mem_flatMap.mp h
  rw [hexItem_eq] at hb
  rcases List.mem_append.mp hb with hb | hb
  · obtain ⟨h₁, h₂, h₃, -⟩ := (numberByte_of_mem hb).ne
    exact ⟨h₁, h₂, h₃⟩
  · simp only [List.mem_cons, List.not_mem_nil, or_false] at hb
    rcases hb with rfl | rfl
    · decide
    · decide

/-! ### Numbers -/

/-- The digits of `hex_str_to_bin` are the ones that `printf` writes. -/
theorem hexDigit_table : ∀ d : Fin 16,
    (0x30 ≤ digitByte d.val ∧ digitByte d.val ≤ 0x39 ∧ (digitByte d.val).toNat - 0x30 = d.val) ∨
    (¬(0x30 ≤ digitByte d.val ∧ digitByte d.val ≤ 0x39) ∧ 0x61 ≤ digitByte d.val ∧
      digitByte d.val ≤ 0x66 ∧ (digitByte d.val).toNat - 0x61 + 10 = d.val) := by
  decide

/-- A digit that is printed is read as itself, as long as the number stays an `int`. -/
theorem hexStep_digit (acc d : Nat) (hd : d < 16) :
    hexStep acc (digitByte d)
      = if acc * 16 + d ≤ INT_MAX then .ok (acc * 16 + d) else .error .undefined := by
  rcases hexDigit_table ⟨d, hd⟩ with ⟨hlow, hhigh, hval⟩ | ⟨hnot, hlow, hhigh, hval⟩
  · rw [hexStep, if_pos ⟨hlow, hhigh⟩, hval, pushDigit]
  · rw [hexStep, if_neg hnot, if_pos ⟨hlow, hhigh⟩, hval, pushDigit]

/-- A number is read as it was written, when it is one of an `int`. -/
theorem hexStrToBin_numberText (c : WChar) :
    hexStrToBin (numberText c)
      = if c.toNat < 2 ^ 31 then .ok c.toNat else .error .undefined := by
  -- `hex_str_to_bin` passes over the x, and the 0 before it counts for nothing.
  have hfront : hexStrToBin (numberText c) = (printNat 16 c.toNat).foldlM hexStep 0 := rfl
  have hbound : c.toNat ≤ INT_MAX ↔ c.toNat < 2 ^ 31 := by
    rw [INT_MAX]
    omega
  rw [hfront, foldlM_printNat (by omega) hexStep_digit]
  simp only [hbound]

/-- A token and the separators behind it. -/
theorem strtok_cons {tok rest : List Byte} (hne : tok ≠ [])
    (htok : ∀ b ∈ tok, b ≠ 0x2c ∧ b ≠ 0x20) :
    strtok [0x2c, 0x20] (tok ++ [0x2c, 0x20] ++ rest) = tok :: strtok [0x2c, 0x20] rest := by
  have hclean : ∀ b ∈ tok, [(0x2c : Byte), 0x20].contains b = false := by
    intro b hb
    obtain ⟨hcomma, hblank⟩ := htok b hb
    simp [hcomma, hblank]
  have hsplit : (tok ++ [0x2c, 0x20] ++ rest).splitOnP ([(0x2c : Byte), 0x20].contains ·)
      = tok :: [] :: rest.splitOnP ([(0x2c : Byte), 0x20].contains ·) := by
    rw [List.append_assoc]
    show (tok ++ 0x2c :: ([] ++ 0x20 :: rest)).splitOnP _ = _
    rw [List.splitOnP_append_cons_of_forall_mem hclean _ (by decide),
      List.splitOnP_append_cons_of_forall_mem (by simp) _ (by decide)]
  have htrue : (decide (¬tok.isEmpty)) = true := by
    simpa using hne
  rw [strtok, hsplit, List.filter_cons, if_pos htrue, List.filter_cons, if_neg (by simp)]
  rfl

/-- `strtok` takes the items of a value apart into their numbers. -/
theorem strtok_numbers (value : List WChar) :
    strtok [0x2c, 0x20] (value.flatMap hexItem ++ [0x30, 0x78, 0x30])
      = value.map numberText ++ [[0x30, 0x78, 0x30]] := by
  induction value with
  | nil => decide
  | cons c value ih =>
    have htok : ∀ b ∈ numberText c, b ≠ 0x2c ∧ b ≠ 0x20 := by
      intro b hb
      exact (numberByte_of_mem hb).ne.2.2.2
    have hne : numberText c ≠ [] := List.cons_ne_nil _ _
    rw [List.flatMap_cons, hexItem_eq, List.append_assoc, strtok_cons hne htok, ih]
    rfl

/-- The numbers of a string that is not too long are split and read. -/
theorem split_numbers {value : List WChar} (hshort : value.length < 200) :
    split (value.flatMap hexItem ++ [0x30, 0x78, 0x30]) [0x2c, 0x20] 200
      = .ok (value.map numberText ++ [[0x30, 0x78, 0x30]]) := by
  have htake : (value.map numberText ++ [[0x30, 0x78, 0x30]]).take 200
      = value.map numberText ++ [[0x30, 0x78, 0x30]] := by
    refine List.take_of_length_le ?_
    rw [List.length_append, List.length_map, List.length_singleton]
    omega
  have hsmall : ¬∃ tok ∈ value.map numberText ++ [[0x30, 0x78, 0x30]],
      TOKEN_SIZE ≤ tok.length := by
    rintro ⟨tok, htok, hlong⟩
    rw [TOKEN_SIZE] at hlong
    rcases List.mem_append.mp htok with htok | htok
    · obtain ⟨c, -, rfl⟩ := List.mem_map.mp htok
      have hlen := (numberText_length c).2
      omega
    · rw [List.mem_singleton.mp htok] at hlong
      exact absurd hlong (by decide)
  rw [split, strtok_numbers, htake, if_neg]
  rintro (hnil | hlong)
  · simp at hnil
  · exact hsmall hlong

/-! ### Lines -/

/-- `fgets` returns a line that fits the buffer. -/
theorem fgets_line {body : List Byte} (hbody : NEWLINE ∉ body) {size : Nat}
    (hsize : body.length + 1 < size) (rest : List Byte) :
    fgets size (body ++ NEWLINE :: rest) = (body ++ [NEWLINE], rest) := by
  obtain ⟨m, hm⟩ : ∃ m, size - 1 = body.length + (m + 1) := ⟨size - 2 - body.length, by omega⟩
  have hfront : (body ++ NEWLINE :: rest).take (size - 1) = body ++ NEWLINE :: rest.take m := by
    rw [hm, List.take_length_add_append, List.take_succ_cons]
  have hmem : NEWLINE ∈ body ++ NEWLINE :: rest.take m := by simp
  have hidx : (body ++ NEWLINE :: rest.take m).idxOf NEWLINE = body.length := by
    rw [List.idxOf_append, if_neg hbody, List.idxOf_cons_self, Nat.zero_add]
  have hsplit : body ++ NEWLINE :: rest = (body ++ [NEWLINE]) ++ rest := by simp
  rw [fgets, hfront, if_pos hmem, hidx, hsplit,
    List.take_left' (by simp), List.drop_left' (by simp)]

/-- The last brace of a text. -/
theorem findBrace_last {front after : List Byte} (hfront : front ≠ []) (hafter : BRACE ∉ after) :
    ∀ k ≤ after.length,
      findBrace (front ++ BRACE :: after) (front.length + k) = some front.length := by
  intro k
  induction k with
  | zero =>
    intro _
    obtain ⟨n, hn⟩ : ∃ n, front.length = n + 1 :=
      Nat.exists_eq_succ_of_ne_zero fun h => hfront (List.length_eq_zero_iff.mp h)
    have hget : (front ++ BRACE :: after)[n + 1]? = some BRACE := by
      rw [← hn, List.getElem?_append_right (Nat.le_refl _), Nat.sub_self]
      rfl
    rw [Nat.add_zero, hn, findBrace, if_pos hget]
  | succ k ih =>
    intro hk
    have hget : (front ++ BRACE :: after)[front.length + k + 1]? ≠ some BRACE := by
      rw [Nat.add_assoc, List.getElem?_append_right (Nat.le_add_right _ _), Nat.add_sub_cancel_left,
        List.getElem?_cons_succ]
      intro hbrace
      exact hafter (List.mem_of_getElem? hbrace)
    rw [← Nat.add_assoc, findBrace, if_neg hget]
    exact ih (by omega)

/-- The node that is made of a line: the array of the name with the NUL in it, and the
numbers. -/
def Entry.node (e : Entry) : ConfNode where
  name := ascii "str_" ++ e.name ++ 0 :: (ascii "] = \x7b" ++ e.hexValue ++ ascii "0x0\x7d;\n")
  data := e.hexValue ++ ascii "0x0"

/-- The value of an entry as it is printed is its items one behind the other. -/
theorem Entry.hexValue_eq (e : Entry) : e.hexValue = e.value.flatMap hexItem := by
  obtain ⟨s, s', hmade⟩ := e.made
  exact (makeWcharToHexString_ok e.value hmade).1

/-- The body of a line, and its parts. -/
theorem Entry.line_eq (e : Entry) :
    e.line = linePrefix ++ (ascii "str_" ++ e.name ++ BRACKET ::
      (ascii "] = \x7b" ++ e.hexValue ++ ascii "0x0\x7d;\n")) := by
  have hfront : ascii "static const wchar_t str_" = linePrefix ++ ascii "str_" := by
    decide
  have hmid : ascii "[] = \x7b" = BRACKET :: ascii "] = \x7b" := by decide
  rw [Entry.line, arrLine, hfront, hmid]
  simp

/-- The fixed texts of a line have no NUL and, but for the end, no newline. -/
theorem fixed_bytes :
    (∀ b ∈ linePrefix ++ ascii "str_" ++ ascii "] = \x7b" ++ ascii "0x0", b ≠ 0 ∧ b ≠ NEWLINE) ∧
      BRACKET ∉ ascii "str_" ∧ linePrefix.length = 21 ∧ (ascii "str_").length = 4 ∧
      (ascii "] = \x7b").length = 5 ∧
      ascii "0x0\x7d;\n" = ascii "0x0" ++ BRACE :: [0x3b, NEWLINE] := by
  decide +kernel

/-- A line without its newline. -/
def Entry.body (e : Entry) : List Byte :=
  linePrefix ++ (ascii "str_" ++ e.name ++ BRACKET ::
    (ascii "] = \x7b" ++ e.hexValue ++ (ascii "0x0" ++ [BRACE, 0x3b])))

/-- The line of an entry is its body with the newline behind it. -/
theorem Entry.line_eq_body (e : Entry) : e.line = e.body ++ [NEWLINE] := by
  rw [Entry.line_eq, fixed_bytes.2.2.2.2.2, Entry.body]
  simp

/-- No byte in the body of a line ends a string or a line. -/
theorem Entry.mem_body (e : Entry) : ∀ b ∈ e.body, b ≠ 0 ∧ b ≠ NEWLINE := by
  intro b hb
  have hfixed := fixed_bytes.1 b
  simp only [Entry.body, List.mem_append, List.mem_cons, List.not_mem_nil, or_false] at hb hfixed
  rcases hb with hb | (hb | hb) | rfl | (hb | hb) | hb | rfl | rfl
  · exact hfixed (Or.inl (Or.inl (Or.inl hb)))
  · exact hfixed (Or.inl (Or.inl (Or.inr hb)))
  · obtain ⟨hzero, hnewline, -⟩ := identByte_ne b (e.ident b hb)
    exact ⟨hzero, hnewline⟩
  · decide
  · exact hfixed (Or.inl (Or.inr hb))
  · rw [e.hexValue_eq] at hb
    obtain ⟨hzero, hnewline, -⟩ := mem_hexText hb
    exact ⟨hzero, hnewline⟩
  · exact hfixed (Or.inr hb)
  · decide
  · decide

/-- The name ends at its bracket. -/
theorem Entry.mem_name (e : Entry) : ∀ b ∈ ascii "str_" ++ e.name, b ≠ 0 ∧ b ≠ BRACKET := by
  intro b hb
  rcases List.mem_append.mp hb with hb | hb
  · refine ⟨(fixed_bytes.1 b (by simp [hb])).1, ?_⟩
    rintro rfl
    exact fixed_bytes.2.1 hb
  · obtain ⟨hzero, -, hbracket⟩ := identByte_ne b (e.ident b hb)
    exact ⟨hzero, hbracket⟩

/-- The line of an entry is one string, up to its newline. -/
theorem Entry.cStr_line (e : Entry) : cStr e.line = e.line := by
  rw [cStr, List.takeWhile_eq_self_iff, e.line_eq_body]
  intro b hb
  rcases List.mem_append.mp hb with hb | hb
  · exact decide_eq_true (e.mem_body b hb).1
  · rw [List.mem_singleton.mp hb]
    decide

/-- The data of a line, up to its last brace. -/
theorem Entry.findBrace_data (e : Entry) :
    findBrace (e.hexValue ++ ascii "0x0\x7d;\n") ((e.hexValue ++ ascii "0x0\x7d;\n").length - 1)
      = some (e.hexValue ++ ascii "0x0").length := by
  have hsplit : e.hexValue ++ ascii "0x0\x7d;\n"
      = (e.hexValue ++ ascii "0x0") ++ BRACE :: [0x3b, NEWLINE] := by
    rw [fixed_bytes.2.2.2.2.2, List.append_assoc]
  have hne : e.hexValue ++ ascii "0x0" ≠ [] := by
    intro hnil
    exact absurd (List.append_eq_nil_iff.mp hnil).2 (by decide)
  rw [hsplit, List.length_append]
  exact findBrace_last hne (by decide) 2 (Nat.le_refl _)

/-- A line is kept, with its name and its numbers. -/
theorem readLine_line (e : Entry) : readLine e.line = .ok (some e.node) := by
  obtain ⟨-, -, hfront, hstr, hmid, -⟩ := fixed_bytes
  have hkept : linePrefix.isPrefixOf e.line = true := by
    rw [e.line_eq]
    exact List.isPrefixOf_iff_prefix.mpr (List.prefix_append _ _)
  have htext : e.line.drop linePrefix.length = ascii "str_" ++ e.name ++ BRACKET ::
      (ascii "] = \x7b" ++ e.hexValue ++ ascii "0x0\x7d;\n") := by
    rw [e.line_eq, List.drop_left]
  have hidx : (ascii "str_" ++ e.name ++ BRACKET ::
      (ascii "] = \x7b" ++ e.hexValue ++ ascii "0x0\x7d;\n")).idxOf BRACKET
      = (ascii "str_" ++ e.name).length := by
    rw [List.idxOf_append, if_neg fun h => (e.mem_name _ h).2 rfl, List.idxOf_cons_self,
      Nat.zero_add]
  have hset : (ascii "str_" ++ e.name ++ BRACKET ::
      (ascii "] = \x7b" ++ e.hexValue ++ ascii "0x0\x7d;\n")).set
      (ascii "str_" ++ e.name).length 0 = e.node.name := by
    rw [List.set_append_right _ _ (Nat.le_refl _), Nat.sub_self]
    rfl
  have hcut : cStr e.node.name = ascii "str_" ++ e.name :=
    cStr_append_zero (fun h => (e.mem_name 0 h).1 rfl) _
  have hdata : e.line.drop (linePrefix.length + (ascii "str_" ++ e.name).length + 6)
      = e.hexValue ++ ascii "0x0\x7d;\n" := by
    have hsplit : e.line = (linePrefix ++ (ascii "str_" ++ e.name) ++ BRACKET ::
        ascii "] = \x7b") ++ (e.hexValue ++ ascii "0x0\x7d;\n") := by
      rw [e.line_eq]
      simp
    rw [hsplit]
    refine List.drop_left' ?_
    rw [List.length_append, List.length_append, List.length_cons, hmid]
  have hlong : ¬e.line.length < linePrefix.length + (ascii "str_" ++ e.name).length + 6 := by
    intro hlt
    rw [List.drop_of_length_le (Nat.le_of_lt hlt)] at hdata
    exact absurd (List.append_eq_nil_iff.mp hdata.symm).2 (by decide)
  have hbracket : BRACKET ∈ ascii "str_" ++ e.name ++ BRACKET ::
      (ascii "] = \x7b" ++ e.hexValue ++ ascii "0x0\x7d;\n") :=
    List.mem_append_right _ List.mem_cons_self
  have htake : (e.hexValue ++ ascii "0x0\x7d;\n").take (e.hexValue ++ ascii "0x0").length
      = e.node.data := by
    rw [fixed_bytes.2.2.2.2.2, ← List.append_assoc, List.take_left]
    rfl
  rw [readLine]
  simp only [e.cStr_line, hkept, not_true_eq_false, if_false, htext, if_pos hbracket, hidx, hset,
    hcut, hlong, hdata, e.findBrace_data, htake]

/-- Every character of a value takes five bytes of its text or more. -/
theorem hexText_length (value : List WChar) :
    5 * value.length ≤ (value.flatMap hexItem).length := by
  induction value with
  | nil => exact Nat.zero_le _
  | cons c value ih =>
    have hthree := (numberText_length c).1
    rw [List.flatMap_cons, hexItem_eq, List.length_append, List.length_append, List.length_cons,
      List.length_cons, List.length_singleton]
    omega

/-- The numbers of a string and the one that ends it. -/
theorem mapM_numbers (value : List WChar) :
    (value.map numberText ++ [[0x30, 0x78, 0x30]]).mapM hexStrToBin
      = if Small value then .ok (value.map UInt32.toNat ++ [0]) else .error .undefined := by
  have hend : [[0x30, 0x78, 0x30]].mapM hexStrToBin = .ok [0] := by decide
  have hchars : (value.map numberText).mapM hexStrToBin
      = if Small value then .ok (value.map UInt32.toNat) else .error .undefined := by
    rw [List.mapM_map]
    exact mapM_checked fun c _ => hexStrToBin_numberText c
  rw [List.mapM_append, hchars, hend]
  by_cases hsmall : Small value
  · rw [if_pos hsmall, if_pos hsmall]
    rfl
  · rw [if_neg hsmall, if_neg hsmall]
    rfl

/-- The node of a line has its name and its string, when that is small. -/
theorem nodeString_node (e : Entry) :
    nodeString e.node = if Small e.value then .ok e.pair else .error .undefined := by
  -- A line fits its buffer of 1024 bytes, and a number takes at least five of them.
  have hshort : e.value.length < 200 := by
    have hfits := e.fits
    have hlen := hexText_length e.value
    rw [e.hexValue_eq, arrLine] at hfits
    simp only [List.length_append, BUFFER] at hfits
    have hfixed : (ascii "static const wchar_t str_").length = 25 := by decide
    omega
  have hdelim : ascii ", " = [0x2c, 0x20] := by decide
  have hzero : ascii "0x0" = [0x30, 0x78, 0x30] := by decide
  have hname : cStr (e.node.name.drop 4) = e.name := by
    rw [Entry.node, List.append_assoc, List.drop_left' fixed_bytes.2.2.2.1]
    exact cStr_append_zero (fun h => (identByte_ne 0 (e.ident 0 h)).1 rfl) _
  have hvalue : wcs ((e.value.map UInt32.toNat ++ [0]).map UInt32.ofNat) = e.value := by
    have hmap : (e.value.map UInt32.toNat).map UInt32.ofNat = e.value := by
      rw [List.map_map]
      exact List.map_id'' (fun c => UInt32.ofNat_toNat) e.value
    rw [List.map_append, hmap, List.map_singleton, wcs, List.takeWhile_append_of_pos]
    · exact List.append_nil _
    · intro c hc
      exact decide_eq_true fun h => e.noNul (h ▸ hc)
  have hsplit : split e.node.data (ascii ", ") 200
      = .ok (e.value.map numberText ++ [[0x30, 0x78, 0x30]]) := by
    rw [show e.node.data = e.hexValue ++ ascii "0x0" from rfl, e.hexValue_eq, hdelim, hzero,
      split_numbers hshort]
  have hrun : nodeString e.node
      = ((e.value.map numberText ++ [[0x30, 0x78, 0x30]]).mapM hexStrToBin).bind fun str =>
          .ok (cStr (e.node.name.drop 4), wcs (str.map UInt32.ofNat)) := by
    rw [nodeString, hsplit]
    rfl
  rw [hrun, mapM_numbers, hname]
  split
  · exact congrArg (fun value => Except.ok (e.name, value)) hvalue
  · rfl

/-! ### Files -/

/-- Reading the file line by line gives the lines of its entries. -/
theorem fileLines_lines (entries : List Entry) :
    ∀ calls, entries.length ≤ calls →
      fileLines calls (entries.flatMap Entry.line) = entries.map Entry.line := by
  induction entries with
  | nil =>
    intro calls _
    cases calls with
    | zero => rfl
    | succ calls => rfl
  | cons e entries ih =>
    intro calls hcalls
    cases calls with
    | zero => exact absurd hcalls (by simp)
    | succ calls =>
      -- The line was made in a buffer that is smaller than the one of `fgets`.
      have hfits : e.body.length + 1 < CONF_SIZE := by
        have hlen := e.fits
        rw [← Entry.line, e.line_eq_body, List.length_append, List.length_singleton,
          BUFFER] at hlen
        rw [CONF_SIZE]
        omega
      have hfile : (e :: entries).flatMap Entry.line
          = e.body ++ NEWLINE :: entries.flatMap Entry.line := by
        rw [List.flatMap_cons, e.line_eq_body]
        simp
      have hne : e.body ++ NEWLINE :: entries.flatMap Entry.line ≠ [] := by simp
      rw [hfile, fileLines.eq_3 _ _ hne,
        fgets_line (fun h => (e.mem_body _ h).2 rfl) hfits, ← e.line_eq_body,
        ih calls (by rw [List.length_cons] at hcalls; omega)]
      rfl

/-- Reading the lines of entries that are read back puts their nodes in front of the list, last
first. -/
theorem readLines_lines (entries : List Entry) :
    ∀ nodes, readLines (entries.map Entry.line) nodes
      = .ok ((entries.map Entry.node).reverse ++ nodes) := by
  induction entries with
  | nil =>
    intro nodes
    rfl
  | cons e entries ih =>
    intro nodes
    rw [List.map_cons, readLines, readLine_line]
    dsimp only
    rw [ih]
    simp

/-- There are as many bytes as lines. -/
theorem length_le_lines (entries : List Entry) :
    entries.length ≤ (entries.flatMap Entry.line).length := by
  induction entries with
  | nil => exact Nat.zero_le _
  | cons e entries ih =>
    rw [List.flatMap_cons, List.length_append, e.line_eq_body, List.length_append,
      List.length_singleton, List.length_cons]
    omega

/-- A file of lines that were written is read back, the last line first, when the strings are
small. -/
theorem hexToStr_lines (entries : List Entry) :
    hexToStr (entries.flatMap Entry.line)
      = if ∀ e ∈ entries, Small e.value then .ok (entries.reverse.map Entry.pair)
        else .error .undefined := by
  have hconf : readConf (entries.flatMap Entry.line) = .ok (entries.reverse.map Entry.node) := by
    rw [readConf, fileLines_lines entries _ (length_le_lines entries), readLines_lines,
      List.append_nil, List.map_reverse]
  have hnodes : (entries.reverse.map Entry.node).mapM nodeString
      = if ∀ e ∈ entries.reverse, Small e.value then .ok (entries.reverse.map Entry.pair)
        else .error .undefined := by
    rw [List.mapM_map]
    exact mapM_checked fun e _ => nodeString_node e
  rw [hexToStr, hconf]
  dsimp only
  rw [hnodes]
  simp only [List.mem_reverse]

/-- The line of an identifier and a wide string, wherever it stands among others that can be read,
is read back as that name and that string exactly when every character of the string is below
`2 ^ 31`. A larger one overflows the `num` of `hex_str_to_bin`. -/
theorem read_back_iff (name : Name) (value : List WChar)
    (hname : ∀ b ∈ name, identByte b = true) (hvalue : 0 ∉ value)
    (hfits : (arrLine name (value.flatMap hexItem)).length < BUFFER) (s : LanState)
    (before after : List Entry) (hothers : ∀ e ∈ before ++ after, Small e.value) :
    ∃ hexValue s', makeWcharToHexString s value [] = .ok (hexValue, s') ∧
      (hexToStr (before.flatMap Entry.line ++ arrLine name hexValue ++ after.flatMap Entry.line)
          = .ok (after.reverse.map Entry.pair ++ (name, value) :: before.reverse.map Entry.pair) ↔
        ∀ c ∈ value, c.toNat < 2 ^ 31) := by
  have hroom : ([] ++ value.flatMap hexItem).length < BUFFER := by
    simp only [arrLine, List.length_append] at hfits
    rw [List.nil_append]
    omega
  obtain ⟨s', hmade⟩ := makeWcharToHexString_fits value (s := s) hroom
  rw [List.nil_append] at hmade
  refine ⟨_, s', hmade, ?_⟩
  let e : Entry := ⟨name, value, _, hname, hvalue, ⟨s, s', hmade⟩, hfits⟩
  have hlines := hexToStr_lines (before ++ e :: after)
  have hpairs : (before ++ e :: after).reverse.map Entry.pair
      = after.reverse.map Entry.pair ++ (name, value) :: before.reverse.map Entry.pair := by
    simp [e, Entry.pair]
  have hall : (∀ e' ∈ before ++ e :: after, Small e'.value) ↔ Small value := by
    refine ⟨fun h => h e (by simp), fun h e' he' => ?_⟩
    rcases List.mem_append.mp he' with he' | he'
    · exact hothers e' (List.mem_append_left _ he')
    rcases List.mem_cons.mp he' with rfl | he'
    · exact h
    · exact hothers e' (List.mem_append_right _ he')
  rw [List.flatMap_append, List.flatMap_cons, ← List.append_assoc, hpairs] at hlines
  rw [show arrLine name (value.flatMap hexItem) = e.line from rfl, hlines]
  split
  · rename_i hsmall
    exact iff_of_true rfl (hall.mp hsmall)
  · rename_i hlarge
    refine iff_of_false (fun h => ?_) fun h => hlarge (hall.mpr h)
    cases h

/-- The line of the name `To` and the Euro sign, alone in its file. -/
theorem read_back_iff_euro : ∃ hexValue s',
    makeWcharToHexString LanState.init [0x20ac] [] = .ok (hexValue, s') ∧
      (hexToStr ([] ++ arrLine (ascii "To") hexValue ++ []) = .ok [(ascii "To", [0x20ac])] ↔
        ∀ c ∈ [(0x20ac : WChar)], c.toNat < 2 ^ 31) :=
  read_back_iff (ascii "To") [0x20ac] (by decide +kernel) (by decide) (by decide +kernel)
    LanState.init [] [] (by simp)

/-- The line of the name `To` and the character `2 ^ 31` is not read back. -/
theorem large_not_read_back : ∃ hexValue s',
    makeWcharToHexString LanState.init [0x80000000] [] = .ok (hexValue, s') ∧
      (arrLine (ascii "To") hexValue).length < BUFFER ∧
      hexToStr (arrLine (ascii "To") hexValue) = .error .undefined := by
  have hmade : makeWcharToHexString LanState.init [0x80000000] []
      = .ok (ascii "0x80000000, ", LanState.init) := by decide +kernel
  refine ⟨_, _, hmade, by decide +kernel, ?_⟩
  decide +kernel

/-! ### Runs of `lan_strings` -/

/-- The file is made of small entries, and those are the lines. -/
def Listed (s : LanState) : Prop :=
  ∃ entries : List Entry, (∀ e ∈ entries, Small e.value) ∧
    s.arrFile = entries.flatMap Entry.line ∧ s.lines = entries.map fun e => ⟨e.name, e.value⟩

/-- Writing one entry keeps the file a list of entries. -/
theorem Listed.writeLines {s s' : LanState} {name : Name} {value : List WChar} (hs : Listed s)
    (hname : ∀ b ∈ name, identByte b = true) (hvalue : ∀ c ∈ value, c ≠ 0 ∧ c.toNat < 0x10000)
    (h : writeLines s name value = .ok s') : Listed s' := by
  obtain ⟨entries, hsmall, hfile, hlines⟩ := hs
  obtain ⟨-, hlines', hexValue, s₁, hmade, hfits, hfile'⟩ := writeLines_ok h
  have hnul : 0 ∉ value := fun hzero => (hvalue 0 hzero).1 rfl
  refine ⟨entries ++ [⟨name, value, hexValue, hname, hnul, ⟨s, s₁, hmade⟩, hfits⟩], ?_, ?_, ?_⟩
  · intro e he
    rcases List.mem_append.mp he with he | he
    · exact hsmall e he
    · rw [List.mem_singleton.mp he]
      exact fun c hc => Nat.lt_trans (hvalue c hc).2 (by decide)
  · rw [hfile', hfile, List.flatMap_append, List.flatMap_singleton]
    rfl
  · rw [hlines', hlines, List.map_append]
    rfl

/-- Writing a whole language keeps the file a list of entries. -/
theorem Writes.listed {lang : Language} {names : List Name} {s s' : LanState}
    (h : Writes lang names s s') (hnames : ∀ name ∈ names, ∀ b ∈ name, identByte b = true)
    (hs : Listed s) : Listed s' := by
  induction h with
  | nil s => exact hs
  | cons _ hvalue hwrite _ ih =>
    refine ih (fun name hname => hnames name (List.mem_cons_of_mem _ hname)) ?_
    exact hs.writeLines (hnames _ List.mem_cons_self) (strValue_narrow hvalue) hwrite

/-- Whatever `lan_strings` has written for identifiers is read back, after an error too. -/
theorem lanStrings_read_back {names : List Name} {lang : Language} {r : LanResult}
    (hnames : ∀ name ∈ names, ∀ b ∈ name, identByte b = true)
    (h : lanStrings names (some lang) = .ok r) :
    hexToStr r.state.arrFile
      = .ok (r.state.lines.reverse.map fun line => (line.name, line.value)) := by
  obtain ⟨-, done, hdone, hwrites, -⟩ := lanStrings_writes h
  obtain ⟨entries, hsmall, hfile, hlines⟩ := hwrites.listed
    (fun name hname => hnames name (hdone.subset hname)) ⟨[], by simp, rfl, rfl⟩
  rw [hfile, hexToStr_lines, if_pos hsmall, hlines, List.map_reverse, List.map_reverse, List.map_map]
  rfl

end LearnGit.Proofs.WideChar
