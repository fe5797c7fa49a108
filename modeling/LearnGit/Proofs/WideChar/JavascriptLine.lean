import LearnGit.Proofs.WideChar.HexToStr
import LearnGit.WideChar.JavascriptTransfer

/-!
# `LearnGit.Proofs.WideChar.JavascriptLine`: what is read of a line

A `Line` has one item: a class that is opened, an entry, a closing brace, a comment, or nothing. The
blanks around its parts, and the commas and semicolons behind it, are its `Layout`.
`Item.lineStatus_body` says what `parser_line` makes of every item. An entry with an empty value is
taken for a class.
-/

set_option autoImplicit false

namespace LearnGit.Proofs.WideChar.Javascript

open LearnGit.Lib
open LearnGit.WideChar
open LearnGit.WideChar.Javascript

/-! ### Items and lines -/

/-- A blank or a tab. -/
def isGap (c : Byte) : Bool := c = 0x20 || c = 0x09

/-- A comma or a semicolon. -/
def isJunk (c : Byte) : Bool := c = 0x2c || c = 0x3b

/-- What stands on a line. The second byte of a comment is a slash or a star. -/
inductive Item where
  | blank
  | comment (second : Byte) (text : List Byte)
  /-- `name: {` -/
  | classColon (name : List Byte)
  /-- `name = {` -/
  | classEquals (name : List Byte)
  /-- `name: 'value'` -/
  | entry (name value : List Byte)
  | close
  deriving DecidableEq, Repr

/-- A name neither begins nor ends with a blank, and has no colon or equals sign. Its first byte is
none that begins a comment or closes a class. -/
structure NameOk (name : List Byte) : Prop where
  ne : name ≠ []
  trimmed : Trimmed isSpace name
  bytes : ∀ c ∈ name, c ≠ 0 ∧ c ≠ NEWLINE ∧ c ≠ COLON ∧ c ≠ EQUALS
  first : ∀ c, name.head? = some c → c ≠ RIGHT_BRACE ∧ c ≠ SLASH

/-- The item can be read. -/
def Item.Ok : Item → Prop
  | .blank => True
  | .comment second text =>
    (second = SLASH ∨ second = STAR) ∧ (∀ c ∈ text, c ≠ 0 ∧ c ≠ NEWLINE) ∧
      ∀ c, text.getLast? = some c → isSpace c = false ∧ c ≠ BACKSLASH
  | .classColon name => NameOk name
  | .classEquals name => NameOk name
  | .entry name value => NameOk name ∧ ∀ c ∈ value, c ≠ 0 ∧ c ≠ NEWLINE ∧ c ≠ QUOTE
  | .close => True

/-- The blanks of a line, and the commas and semicolons behind its item. -/
structure Layout where
  indent : List Byte
  gap : List Byte
  gap' : List Byte
  junk : List Byte
  back : List Byte
  indentOk : ∀ c ∈ indent, isGap c = true
  gapOk : ∀ c ∈ gap, isGap c = true
  gapOk' : ∀ c ∈ gap', isGap c = true
  junkOk : ∀ c ∈ junk, isJunk c = true
  backOk : ∀ c ∈ back, isGap c = true

/-- The bytes of an item. -/
def Item.body (l : Layout) : Item → List Byte
  | .blank => []
  | .comment second text => SLASH :: second :: text
  | .classColon name => (name ++ l.gap) ++ COLON :: (l.gap' ++ LEFT_BRACE :: l.junk)
  | .classEquals name => (name ++ l.gap) ++ EQUALS :: (l.gap' ++ LEFT_BRACE :: l.junk)
  | .entry name value =>
    (name ++ l.gap) ++ COLON :: (l.gap' ++ QUOTE :: (value ++ QUOTE :: l.junk))
  | .close => RIGHT_BRACE :: l.junk

/-- A line without its newline, which fits the buffer. -/
structure Line where
  layout : Layout
  item : Item
  ok : item.Ok
  short : (layout.indent ++ item.body layout ++ layout.back).length + 1 < ASCIILINESZ

namespace Line

def text (line : Line) : List Byte :=
  line.layout.indent ++ line.item.body line.layout ++ line.layout.back

end Line

/-! ### Bytes -/

/-- A gap is made of blanks and tabs. -/
theorem isGap_cases {c : Byte} (h : isGap c = true) : c = 0x20 ∨ c = 0x09 := by
  simpa [isGap] using h

/-- What may stand behind a value is a comma or a semicolon. -/
theorem isJunk_cases {c : Byte} (h : isJunk c = true) : c = 0x2c ∨ c = 0x3b := by
  simpa [isJunk] using h

/-- What blanks between the parts of a line are, and what they are not. -/
theorem isGap_class {c : Byte} (h : isGap c = true) :
    isSpace c = true ∧ isWhite c = true ∧ c ≠ 0 ∧ c ≠ NEWLINE ∧ c ≠ COLON ∧ c ≠ EQUALS := by
  rcases isGap_cases h with rfl | rfl <;> decide

/-- A comma or a semicolon is none of the characters the scans look for. -/
theorem isJunk_class {c : Byte} (h : isJunk c = true) :
    isSpace c = false ∧ c ≠ 0 ∧ c ≠ NEWLINE ∧ c ≠ COLON ∧ c ≠ EQUALS ∧ c ≠ BACKSLASH ∧ c ≠ SLASH := by
  rcases isJunk_cases h with rfl | rfl <;> decide

/-- The last byte in front of commas and semicolons, or one of them. -/
theorem getLast?_junk {front junk : List Byte} {b c : Byte} (hjunk : ∀ c ∈ junk, isJunk c = true)
    (h : (front ++ b :: junk).getLast? = some c) : c = b ∨ isJunk c = true := by
  rw [List.getLast?_append_of_ne_nil _ (List.cons_ne_nil b junk)] at h
  exact (List.mem_cons.mp (List.mem_of_getLast? h)).imp_right (hjunk c)

/-! ### Bodies -/

/-- What the reader of lines relies on. -/
structure BodyOk (body : List Byte) : Prop where
  trimmed : Trimmed isSpace body
  bytes : ∀ c ∈ body, c ≠ 0 ∧ c ≠ NEWLINE
  last : body.getLast? ≠ some BACKSLASH

/-- A body that a brace or quote ends, with commas and semicolons behind it. -/
theorem BodyOk.framed {front junk : List Byte} {b : Byte}
    (hfirst : ∀ c, (front ++ [b]).head? = some c → isSpace c = false)
    (hfront : ∀ c ∈ front, c ≠ 0 ∧ c ≠ NEWLINE) (hb : b = LEFT_BRACE ∨ b = QUOTE ∨ b = RIGHT_BRACE)
    (hjunk : ∀ c ∈ junk, isJunk c = true) : BodyOk (front ++ b :: junk) := by
  have hbyte : isSpace b = false ∧ b ≠ 0 ∧ b ≠ NEWLINE ∧ b ≠ BACKSLASH := by
    rcases hb with rfl | rfl | rfl <;> decide
  constructor
  · constructor
    · intro c hc
      refine hfirst c ?_
      rw [List.append_cons, List.head?_append_of_ne_nil _ (by simp)] at hc
      exact hc
    · intro c hc
      rcases getLast?_junk hjunk hc with rfl | hc
      · exact hbyte.1
      · exact (isJunk_class hc).1
  · intro c hc
    rw [List.mem_append, List.mem_cons] at hc
    rcases hc with hc | rfl | hc
    · exact hfront c hc
    · exact ⟨hbyte.2.1, hbyte.2.2.1⟩
    · exact ⟨(isJunk_class (hjunk c hc)).2.1, (isJunk_class (hjunk c hc)).2.2.1⟩
  · intro hc
    rcases getLast?_junk hjunk hc with hc | hc
    · exact hbyte.2.2.2 hc.symm
    · exact absurd hc (by decide)

/-- A body that a name begins, with a separator, a value and a brace or quote behind it. -/
theorem BodyOk.named {name : List Byte} (hname : NameOk name) (l : Layout) (sep b : Byte)
    (value : List Byte) (hsep : sep ≠ 0 ∧ sep ≠ NEWLINE)
    (hvalue : ∀ c ∈ value, c ≠ 0 ∧ c ≠ NEWLINE) (hb : b = LEFT_BRACE ∨ b = QUOTE) :
    BodyOk ((name ++ l.gap) ++ sep :: (l.gap' ++ (value ++ b :: l.junk))) := by
  have hassoc : (name ++ l.gap) ++ sep :: (l.gap' ++ (value ++ b :: l.junk))
      = (name ++ (l.gap ++ sep :: (l.gap' ++ value))) ++ b :: l.junk := by simp
  rw [hassoc]
  refine BodyOk.framed (fun c hc => ?_) (fun c hc => ?_) (hb.imp_right .inl) l.junkOk
  · rw [List.append_assoc, List.head?_append_of_ne_nil _ hname.ne] at hc
    exact hname.trimmed.first c hc
  · rw [List.mem_append, List.mem_append, List.mem_cons, List.mem_append] at hc
    rcases hc with hc | hc | rfl | hc | hc
    · exact ⟨(hname.bytes c hc).1, (hname.bytes c hc).2.1⟩
    · exact ⟨(isGap_class (l.gapOk c hc)).2.2.1, (isGap_class (l.gapOk c hc)).2.2.2.1⟩
    · exact hsep
    · exact ⟨(isGap_class (l.gapOk' c hc)).2.2.1, (isGap_class (l.gapOk' c hc)).2.2.2.1⟩
    · exact hvalue c hc

/-- The body of a well formed item begins and ends with something other than space. -/
theorem Item.bodyOk (l : Layout) {item : Item} (h : item.Ok) : BodyOk (item.body l) := by
  cases item with
  | blank => exact ⟨Trimmed.nil, fun c hc => absurd hc List.not_mem_nil, by simp [Item.body]⟩
  | comment second text =>
    obtain ⟨hsecond, htext, hlast⟩ := h
    have hbyte : isSpace second = false ∧ second ≠ 0 ∧ second ≠ NEWLINE ∧ second ≠ BACKSLASH := by
      rcases hsecond with rfl | rfl <;> decide
    have hlast' : ∀ c, (SLASH :: second :: text).getLast? = some c →
        isSpace c = false ∧ c ≠ BACKSLASH := by
      intro c hc
      cases text with
      | nil =>
        obtain rfl : second = c := by simpa using hc
        exact ⟨hbyte.1, hbyte.2.2.2⟩
      | cons d text => exact hlast c (by simpa [List.getLast?_cons_cons] using hc)
    refine ⟨⟨fun c hc => ?_, fun c hc => (hlast' c hc).1⟩, fun c hc => ?_, fun hc => ?_⟩
    · obtain rfl : SLASH = c := by simpa [Item.body] using hc
      rfl
    · rw [Item.body, List.mem_cons, List.mem_cons] at hc
      rcases hc with rfl | rfl | hc
      · decide
      · exact ⟨hbyte.2.1, hbyte.2.2.1⟩
      · exact htext c hc
    · exact (hlast' _ hc).2 rfl
  | classColon name =>
    exact BodyOk.named h l COLON LEFT_BRACE [] (by decide) (by simp) (.inl rfl)
  | classEquals name =>
    exact BodyOk.named h l EQUALS LEFT_BRACE [] (by decide) (by simp) (.inl rfl)
  | entry name value =>
    have hvalue : ∀ c ∈ QUOTE :: value, c ≠ 0 ∧ c ≠ NEWLINE := by
      intro c hc
      rcases List.mem_cons.mp hc with rfl | hc
      · decide
      · exact ⟨(h.2 c hc).1, (h.2 c hc).2.1⟩
    exact BodyOk.named h.1 l COLON QUOTE (QUOTE :: value) (by decide) hvalue (.inr rfl)
  | close =>
    show BodyOk ([] ++ RIGHT_BRACE :: l.junk)
    refine BodyOk.framed (fun c hc => ?_) (by simp) (.inr (.inr rfl)) l.junkOk
    obtain rfl : RIGHT_BRACE = c := by simpa using hc
    rfl

/-! ### What is read of a line -/

/-- No character of a text is one that the text lacks. -/
theorem ne_of_mem {c : Byte} {l : List Byte} (h : c ∉ l) : ∀ d ∈ l, decide (d ≠ c) = true :=
  fun _ hd => decide_eq_true (ne_of_mem_of_not_mem hd h)

/-- What stands in front of the byte. -/
theorem scanUntil_append {c : Byte} {l : List Byte} (hne : l ≠ []) (h : c ∉ l) (rest : List Byte) :
    scanUntil c (l ++ c :: rest) = some (l, c :: rest) := by
  have htake : (l ++ c :: rest).takeWhile (· ≠ c) = l := by
    rw [List.takeWhile_append_of_pos (ne_of_mem h), List.takeWhile_cons_of_neg (by simp),
      List.append_nil]
  have hdrop : (l ++ c :: rest).dropWhile (· ≠ c) = c :: rest := by
    rw [List.dropWhile_append_of_pos (ne_of_mem h), List.dropWhile_cons_of_neg (by simp)]
  rw [scanUntil, htake, hdrop, if_neg hne]

/-- Without the byte, nothing is left. -/
theorem scanUntil_all {c : Byte} {l : List Byte} (hne : l ≠ []) (h : c ∉ l) :
    scanUntil c l = some (l, []) := by
  have htake : l.takeWhile (· ≠ c) = l := List.takeWhile_eq_self_iff.mpr (ne_of_mem h)
  have hdrop : l.dropWhile (· ≠ c) = [] := List.dropWhile_eq_nil_iff.mpr (ne_of_mem h)
  rw [scanUntil, htake, hdrop, if_neg hne]

/-- A line that is scanned: it is not empty, no comment and no closing brace. -/
structure Scanned (line : List Byte) : Prop where
  ne : line ≠ []
  first : line.head? ≠ some RIGHT_BRACE ∧ line.head? ≠ some SLASH
  last : line.getLast? ≠ some SLASH

/-- The tests for empty lines, braces and comments fail. -/
theorem Scanned.tests {line : List Byte} (h : Scanned line) :
    ¬line.length < 1 ∧ ¬([SLASH, STAR].isPrefixOf line ∨ [SLASH, SLASH].isPrefixOf line) ∧
      ¬[STAR, SLASH].isSuffixOf line := by
  have hbegin : ∀ d, ¬[SLASH, d].isPrefixOf line = true := by
    intro d hd
    obtain ⟨rest, rfl⟩ := List.isPrefixOf_iff_prefix.mp hd
    exact h.first.2 rfl
  refine ⟨?_, not_or.mpr ⟨hbegin _, hbegin _⟩, fun hd => ?_⟩
  · have := List.length_pos_iff.mpr h.ne
    omega
  · obtain ⟨front, rfl⟩ := List.isSuffixOf_iff_suffix.mp hd
    exact h.last (by simp)

/-- A line that is scanned as a name and a value has the status of a value. -/
theorem Scanned.section {line strName strValue : List Byte} (h : Scanned line)
    (hscan : scanSectionValue line = some (strName, strValue)) :
    lineStatus line = .lineSectionValue (strstrip strName) (strstrip strValue) := by
  rw [lineStatus, if_neg h.tests.1, if_neg h.first.1, if_neg h.tests.2.1, if_neg h.tests.2.2, hscan]

/-- A line that is scanned as a name alone has the status of a class. -/
theorem Scanned.class {line strName : List Byte} (h : Scanned line)
    (hscan : scanSectionValue line = none)
    (hname : (scanAssignment line).or (scanClass line) = some strName) :
    lineStatus line = .lineClass (strstrip strName) := by
  rw [lineStatus, if_neg h.tests.1, if_neg h.first.1, if_neg h.tests.2.1, if_neg h.tests.2.2, hscan,
    hname]

/-- A body that a name begins is scanned. -/
theorem NameOk.scanned {name : List Byte} (hname : NameOk name) (l : Layout) (sep b : Byte)
    (value : List Byte) (hb : b ≠ SLASH) :
    Scanned ((name ++ l.gap) ++ sep :: (l.gap' ++ (value ++ b :: l.junk))) := by
  have hhead : ((name ++ l.gap) ++ sep :: (l.gap' ++ (value ++ b :: l.junk))).head? = name.head? := by
    rw [List.append_assoc, List.head?_append_of_ne_nil _ hname.ne]
  refine ⟨by simp, ⟨fun h => ?_, fun h => ?_⟩, fun h => ?_⟩
  · exact (hname.first _ (hhead ▸ h)).1 rfl
  · exact (hname.first _ (hhead ▸ h)).2 rfl
  · have hassoc : (name ++ l.gap) ++ sep :: (l.gap' ++ (value ++ b :: l.junk))
        = (name ++ (l.gap ++ sep :: (l.gap' ++ value))) ++ b :: l.junk := by simp
    rw [hassoc] at h
    rcases getLast?_junk l.junkOk h with h | h
    · exact hb h.symm
    · exact absurd h (by decide)

/-- The name in front of a separator, with the blanks behind it. -/
theorem NameOk.scanUntil_sep {name : List Byte} (hname : NameOk name) (l : Layout) {sep : Byte}
    (hsep : sep = COLON ∨ sep = EQUALS) (rest : List Byte) :
    scanUntil sep ((name ++ l.gap) ++ sep :: rest) = some (name ++ l.gap, sep :: rest) := by
  refine scanUntil_append (by simp [hname.ne]) (fun h => ?_) rest
  rcases List.mem_append.mp h with h | h
  · have hbytes := (hname.bytes sep h).2.2
    exact hsep.elim hbytes.1 hbytes.2
  · have hgap := (isGap_class (l.gapOk sep h)).2.2.2.2
    exact hsep.elim hgap.1 hgap.2

/-- Stripping a name takes away the gap behind it. -/
theorem NameOk.strstrip_gap {name : List Byte} (hname : NameOk name) (l : Layout) :
    strstrip (name ++ l.gap) = name := by
  rw [strstrip, ← List.nil_append name]
  exact strip_of_trimmed (by simp) hname.trimmed fun c hc => (isGap_class (l.gapOk c hc)).1

/-- Blanks in front of a byte that is none are skipped. -/
theorem skipWhite_gap {gap rest : List Byte} {b : Byte} (hgap : ∀ c ∈ gap, isGap c = true)
    (hb : isWhite b = false) : skipWhite (gap ++ b :: rest) = b :: rest := by
  rw [skipWhite, List.dropWhile_append_of_pos fun c hc => (isGap_class (hgap c hc)).2.1,
    List.dropWhile_cons_of_neg (by simp [hb])]

/-- What `parser_line` makes of an item. An entry without a value is read as a class. -/
def Item.status : Item → ClassStatus
  | .blank => .lineEmpty
  | .comment _ _ => .lineCommentBegin
  | .classColon name => .lineClass name
  | .classEquals name => .lineClass name
  | .entry name value =>
    if value = [] then .lineClass name else .lineSectionValue name (strstrip value)
  | .close => .lineRightParenthesis

/-- A line without an equals sign is no assignment. -/
theorem scanAssignment_none {line : List Byte} (hne : line ≠ []) (h : EQUALS ∉ line) :
    scanAssignment line = none := by
  rw [scanAssignment, scanUntil_all hne h]
  rfl

/-- Of the two separators, a body has only its own. -/
theorem NameOk.not_mem_body {name : List Byte} (hname : NameOk name) (l : Layout)
    {d sep : Byte} (hd : d = COLON ∨ d = EQUALS) (hsep : d ≠ sep) {value : List Byte}
    (hvalue : d ∉ value) : d ∉ (name ++ l.gap) ++ sep :: (l.gap' ++ (value ++ l.junk)) := by
  intro h
  have hgap : ¬isGap d = true := by rcases hd with rfl | rfl <;> decide
  have hjunk : ¬isJunk d = true := by rcases hd with rfl | rfl <;> decide
  rw [List.mem_append, List.mem_append, List.mem_cons, List.mem_append, List.mem_append] at h
  rcases h with (h | h) | h | h | h | h
  · exact hd.elim (hname.bytes d h).2.2.1 (hname.bytes d h).2.2.2
  · exact hgap (l.gapOk d h)
  · exact hsep h
  · exact hgap (l.gapOk' d h)
  · exact hvalue h
  · exact hjunk (l.junkOk d h)

/-- A name and a colon make a class where no value is read and no equals sign stands. -/
theorem NameOk.lineStatus_colon {name : List Byte} (hname : NameOk name) (l : Layout)
    {value : List Byte} {b : Byte} (hb : b ≠ SLASH) (hvalue : EQUALS ∉ value ++ [b])
    (hscan : scanSectionValue ((name ++ l.gap) ++ COLON :: (l.gap' ++ (value ++ b :: l.junk)))
      = none) :
    lineStatus ((name ++ l.gap) ++ COLON :: (l.gap' ++ (value ++ b :: l.junk)))
      = .lineClass name := by
  have hclass : scanClass ((name ++ l.gap) ++ COLON :: (l.gap' ++ (value ++ b :: l.junk)))
      = some (name ++ l.gap) := by
    rw [scanClass, hname.scanUntil_sep l (.inl rfl)]
    rfl
  have hno : EQUALS ∉ (name ++ l.gap) ++ COLON :: (l.gap' ++ (value ++ b :: l.junk)) := by
    have h := hname.not_mem_body l (.inr rfl) (by decide : EQUALS ≠ COLON) hvalue
    rwa [List.append_assoc value, List.singleton_append] at h
  -- The name is what the last of the three formats stores.
  rw [(hname.scanned l COLON b value hb).class hscan, hname.strstrip_gap l]
  rw [scanAssignment_none (by simp) hno, Option.none_or, hclass]

/-- The value of an entry is read up to its second quote. -/
theorem NameOk.scanSectionValue_quote {name : List Byte} (hname : NameOk name) (l : Layout)
    (rest : List Byte) :
    scanSectionValue ((name ++ l.gap) ++ COLON :: (l.gap' ++ QUOTE :: rest))
      = (scanUntil QUOTE rest).map fun r => (name ++ l.gap, r.1) := by
  have hcolon : scanChar COLON (COLON :: (l.gap' ++ QUOTE :: rest))
      = some (l.gap' ++ QUOTE :: rest) := rfl
  have hquote : scanChar QUOTE (QUOTE :: rest) = some rest := rfl
  simp only [scanSectionValue, hname.scanUntil_sep l (.inl rfl), Option.bind_eq_bind,
    Option.bind_some, hcolon, skipWhite_gap l.gapOk' (by decide : isWhite QUOTE = false), hquote]
  cases scanUntil QUOTE rest <;> rfl

/-- A name with a colon and a brace is no name with a value. -/
theorem NameOk.scanSectionValue_brace {name : List Byte} (hname : NameOk name) (l : Layout)
    (rest : List Byte) :
    scanSectionValue ((name ++ l.gap) ++ COLON :: (l.gap' ++ LEFT_BRACE :: rest)) = none := by
  have hcolon : scanChar COLON (COLON :: (l.gap' ++ LEFT_BRACE :: rest))
      = some (l.gap' ++ LEFT_BRACE :: rest) := rfl
  have hquote : scanChar QUOTE (LEFT_BRACE :: rest) = none := rfl
  simp only [scanSectionValue, hname.scanUntil_sep l (.inl rfl), Option.bind_eq_bind,
    Option.bind_some, hcolon, skipWhite_gap l.gapOk' (by decide : isWhite LEFT_BRACE = false),
    hquote, Option.bind_none]

/-- A name with an equals sign and a brace is scanned as that name. -/
theorem NameOk.scanAssignment_brace {name : List Byte} (hname : NameOk name) (l : Layout)
    (rest : List Byte) :
    scanAssignment ((name ++ l.gap) ++ EQUALS :: (l.gap' ++ LEFT_BRACE :: rest))
      = some (name ++ l.gap) := by
  have hskip : skipWhite (EQUALS :: (l.gap' ++ LEFT_BRACE :: rest))
      = EQUALS :: (l.gap' ++ LEFT_BRACE :: rest) := rfl
  have hequals : scanChar EQUALS (EQUALS :: (l.gap' ++ LEFT_BRACE :: rest))
      = some (l.gap' ++ LEFT_BRACE :: rest) := rfl
  have htoken : ¬(LEFT_BRACE :: rest).takeWhile (!isWhite ·) = [] := List.cons_ne_nil _ _
  simp only [scanAssignment, hname.scanUntil_sep l (.inr rfl), Option.bind_eq_bind, Option.bind_some,
    hskip, hequals, skipWhite_gap l.gapOk' (by decide : isWhite LEFT_BRACE = false), if_neg htoken]
  rfl

/-- Every item is read as its status says. -/
theorem Item.lineStatus_body (l : Layout) {item : Item} (h : item.Ok) :
    lineStatus (item.body l) = item.status := by
  cases item with
  | blank => rfl
  | comment second text =>
    rcases h.1 with rfl | rfl <;> simp [Item.body, Item.status, lineStatus, SLASH, STAR, RIGHT_BRACE]
  | classColon name =>
    exact NameOk.lineStatus_colon h l (by decide) (by decide : EQUALS ∉ [] ++ [LEFT_BRACE])
      (NameOk.scanSectionValue_brace h l l.junk)
  | classEquals name =>
    -- The first format finds no colon, and the second one stops at the equals sign.
    have hcolon : COLON ∉ (name ++ l.gap) ++ EQUALS :: (l.gap' ++ LEFT_BRACE :: l.junk) :=
      NameOk.not_mem_body h l (.inl rfl) (by decide) (by decide : COLON ∉ [LEFT_BRACE])
    have hscan : scanSectionValue ((name ++ l.gap) ++ EQUALS :: (l.gap' ++ LEFT_BRACE :: l.junk))
        = none := by
      rw [scanSectionValue, scanUntil_all (by simp) hcolon]
      rfl
    have hname : (scanAssignment ((name ++ l.gap) ++ EQUALS :: (l.gap' ++ LEFT_BRACE :: l.junk))).or
        (scanClass ((name ++ l.gap) ++ EQUALS :: (l.gap' ++ LEFT_BRACE :: l.junk)))
        = some (name ++ l.gap) := by
      rw [NameOk.scanAssignment_brace h, Option.some_or]
    have hstatus := (NameOk.scanned h l EQUALS LEFT_BRACE [] (by decide)).class hscan hname
    rwa [NameOk.strstrip_gap h l] at hstatus
  | entry name value =>
    by_cases hvalue : value = []
    · -- The bracket of the first format has to match a character. The last format matches the name
      -- alone.
      rw [hvalue, Item.status, if_pos rfl]
      refine NameOk.lineStatus_colon h.1 l (by decide) (by decide : EQUALS ∉ [QUOTE] ++ [QUOTE]) ?_
      exact NameOk.scanSectionValue_quote h.1 l _
    · rw [Item.status, if_neg hvalue]
      have hquote : QUOTE ∉ value := fun hmem => (h.2 QUOTE hmem).2.2 rfl
      have hscan := NameOk.scanSectionValue_quote h.1 l (value ++ QUOTE :: l.junk)
      rw [scanUntil_append hvalue hquote] at hscan
      have hstatus := (NameOk.scanned h.1 l COLON QUOTE (QUOTE :: value) (by decide)).section hscan
      rwa [NameOk.strstrip_gap h.1 l] at hstatus
  | close => rfl

/-! ### Lines -/

/-- No character of a line ends a string or a line. -/
theorem Line.mem_text (line : Line) : ∀ c ∈ line.text, c ≠ 0 ∧ c ≠ NEWLINE := by
  intro c hc
  rw [Line.text, List.mem_append, List.mem_append] at hc
  rcases hc with (hc | hc) | hc
  · exact ⟨(isGap_class (line.layout.indentOk c hc)).2.2.1,
      (isGap_class (line.layout.indentOk c hc)).2.2.2.1⟩
  · exact (Item.bodyOk line.layout line.ok).bytes c hc
  · exact ⟨(isGap_class (line.layout.backOk c hc)).2.2.1,
      (isGap_class (line.layout.backOk c hc)).2.2.2.1⟩

/-- `strstrip` finds the item on its line. -/
theorem Line.strstrip_text (line : Line) :
    strstrip (line.text ++ [NEWLINE]) = line.item.body line.layout := by
  have hnewline : ∀ c ∈ [NEWLINE], isSpace c = true := by
    intro c hc
    rw [List.mem_singleton.mp hc]
    rfl
  rw [strstrip, strip_append hnewline, Line.text]
  exact strip_of_trimmed (fun c hc => (isGap_class (line.layout.indentOk c hc)).1)
    (Item.bodyOk line.layout line.ok).trimmed fun c hc => (isGap_class (line.layout.backOk c hc)).1

/-- The bytes that are cut off in front of `parser_line`. -/
def isTail (c : Byte) : Bool := c = NEWLINE || c = BLANK

/-- The loop cuts blanks off the end, which `strstrip` would do as well. -/
theorem strstrip_rdropWhile (l : List Byte) : strstrip (l.rdropWhile isTail) = strstrip l := by
  have hspace : ∀ c ∈ l.rtakeWhile isTail, isSpace c = true := by
    intro c hc
    have htail := List.mem_rtakeWhile_imp hc
    rcases (by simpa [isTail] using htail : c = NEWLINE ∨ c = BLANK) with rfl | rfl <;> decide
  conv_rhs => rw [← List.rdropWhile_append_rtakeWhile (p := isTail) (l := l)]
  rw [strstrip, strstrip, strip_append hspace]

/-- No line is continued on the next one. -/
theorem Line.getLast?_cut (line : Line) :
    ((line.text ++ [NEWLINE]).rdropWhile isTail).getLast? ≠ some BACKSLASH := by
  intro h
  have hlast := getLast?_strip h (by decide : isSpace BACKSLASH = false)
  rw [← strstrip, strstrip_rdropWhile, line.strstrip_text] at hlast
  exact (Item.bodyOk line.layout line.ok).last hlast

/-- A line of the text is one string, up to its newline. -/
theorem Line.cStr_text (line : Line) : cStr (line.text ++ [NEWLINE]) = line.text ++ [NEWLINE] := by
  rw [cStr, List.takeWhile_eq_self_iff]
  intro b hb
  rcases List.mem_append.mp hb with hb | hb
  · exact decide_eq_true (line.mem_text b hb).1
  · rw [List.mem_singleton.mp hb]
    decide

/-- Only a blank item has an empty body. -/
theorem Item.eq_blank {l : Layout} {item : Item} (h : item.body l = []) : item = .blank := by
  cases item <;> simp [Item.body] at h ⊢

end LearnGit.Proofs.WideChar.Javascript
