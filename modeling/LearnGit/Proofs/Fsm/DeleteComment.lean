import LearnGit.Fsm.DeleteComment
import LearnGit.Lib.Tokens

/-!
# `LearnGit.Proofs.Fsm.DeleteComment`: what the comment stripper removes

`pieces` cuts a text into its comments and the bytes outside of them, and `removeComments` is the
text without the comments. `deleteComment_eq` says what the machine puts out, in terms of the
pieces. It differs in three places: a slash at the end of the input is lost, the input ends at a
byte 0xFF, and a comment that is closed by an even number of stars and a slash goes on.
`deleteComment_removes_iff` says what follows for the output.
-/

set_option autoImplicit false

namespace LearnGit.Proofs.Fsm

open LearnGit.Lib
open LearnGit.Fsm

/-! ### Texts -/

/-- A byte outside of comments, or a comment with what stands behind its first two bytes. -/
inductive Piece where
  | byte (c : Byte)
  | line (body : List Byte)
  | block (body : List Byte)
  /-- A comment that is not closed before the end of the text. -/
  | unclosed (body : List Byte)
  deriving DecidableEq, Repr

namespace Piece

/-- The bytes of a piece. -/
def text : Piece → List Byte
  | byte c => [c]
  | line body => SLASH :: SLASH :: body
  | block body => SLASH :: STAR :: (body ++ [STAR, SLASH])
  | unclosed body => SLASH :: STAR :: body

/-- The bytes of a piece that are outside of comments. -/
def kept : Piece → List Byte
  | byte c => [c]
  | line _ => []
  | block _ => []
  | unclosed _ => []

end Piece

/-- Where a place in a text is, with what has been read of a comment. -/
inductive Place where
  | outside
  | line (body : List Byte)
  | block (body : List Byte)

/-- The pieces of a text from a place on. -/
def scan : Place → List Byte → List Piece
  | .outside, [] => []
  | .outside, [c] => [.byte c]
  | .outside, c :: d :: rest =>
    if c = SLASH ∧ d = SLASH then scan (.line []) rest
    else if c = SLASH ∧ d = STAR then scan (.block []) rest
    else .byte c :: scan .outside (d :: rest)
  | .line body, [] => [.line body]
  | .line body, c :: rest =>
    if c = NEWLINE then .line body :: .byte c :: scan .outside rest
    else scan (.line (body ++ [c])) rest
  | .block body, [] => [.unclosed body]
  | .block body, [c] => [.unclosed (body ++ [c])]
  | .block body, c :: d :: rest =>
    if c = STAR ∧ d = SLASH then .block body :: scan .outside rest
    else scan (.block (body ++ [c])) (d :: rest)

/-- The pieces of a text. -/
def pieces (text : List Byte) : List Piece := scan .outside text

/-- A text without its comments. -/
def removeComments (text : List Byte) : List Byte := (pieces text).flatMap Piece.kept

/-! ### The pieces -/

section
variable {c d : Byte} {body l : List Byte}

/-- Two bytes outside of comments. -/
theorem scan_outside_cons_cons : scan .outside (c :: d :: l) =
    if c = SLASH ∧ d = SLASH then scan (.line []) l
    else if c = SLASH ∧ d = STAR then scan (.block []) l
    else .byte c :: scan .outside (d :: l) := rfl

/-- A byte in a comment up to the end of the line. -/
theorem scan_line_cons : scan (.line body) (c :: l) =
    if c = NEWLINE then .line body :: .byte c :: scan .outside l
    else scan (.line (body ++ [c])) l := rfl

/-- Two bytes in a comment with stars. -/
theorem scan_block_cons_cons : scan (.block body) (c :: d :: l) =
    if c = STAR ∧ d = SLASH then .block body :: scan .outside l
    else scan (.block (body ++ [c])) (d :: l) := rfl

/-- Any byte but a slash is outside. -/
theorem scan_outside_of_ne (h : c ≠ SLASH) :
    scan .outside (c :: l) = .byte c :: scan .outside l := by
  cases l with
  | nil => rfl
  | cons d l => rw [scan_outside_cons_cons, if_neg fun hc => h hc.1, if_neg fun hc => h hc.1]

/-- A slash alone is outside. -/
theorem scan_slash_of_ne (hslash : c ≠ SLASH) (hstar : c ≠ STAR) :
    scan .outside (SLASH :: c :: l) = .byte SLASH :: .byte c :: scan .outside l := by
  rw [scan_outside_cons_cons, if_neg fun hc => hslash hc.2, if_neg fun hc => hstar hc.2,
    scan_outside_of_ne hslash]

/-- Two slashes begin a comment up to the end of the line. -/
theorem scan_slash_slash : scan .outside (SLASH :: SLASH :: l) = scan (.line []) l := by
  rw [scan_outside_cons_cons, if_pos ⟨rfl, rfl⟩]

/-- A slash and a star begin a comment. -/
theorem scan_slash_star : scan .outside (SLASH :: STAR :: l) = scan (.block []) l := by
  rw [scan_outside_cons_cons, if_neg (by decide), if_pos ⟨rfl, rfl⟩]

/-- Any byte but a star is in the comment. -/
theorem scan_block_of_ne (h : c ≠ STAR) :
    scan (.block body) (c :: l) = scan (.block (body ++ [c])) l := by
  cases l with
  | nil => rfl
  | cons d l => rw [scan_block_cons_cons, if_neg fun hc => h hc.1]

/-- A star and a slash end it. -/
theorem scan_block_star_slash :
    scan (.block body) (STAR :: SLASH :: l) = .block body :: scan .outside l := by
  rw [scan_block_cons_cons, if_pos ⟨rfl, rfl⟩]

/-- A star alone is in the comment. -/
theorem scan_block_star_of_ne (h : c ≠ SLASH) :
    scan (.block body) (STAR :: c :: l) = scan (.block (body ++ [STAR])) (c :: l) := by
  rw [scan_block_cons_cons, if_neg fun hc => h hc.2]

/-- What has been read in front of a place. -/
def Place.text : Place → List Byte
  | outside => []
  | line body => SLASH :: SLASH :: body
  | block body => SLASH :: STAR :: body

/-- The pieces make up the text. -/
theorem flatMap_text_scan (place : Place) (l : List Byte) :
    (scan place l).flatMap Piece.text = place.text ++ l := by
  fun_induction scan place l with
  | case1 => rfl
  | case2 c => rfl
  | case3 c d rest h ih =>
    rw [ih, h.1, h.2]
    rfl
  | case4 c d rest _ h ih =>
    rw [ih, h.1, h.2]
    rfl
  | case5 c d rest _ _ ih =>
    rw [List.flatMap_cons, ih]
    rfl
  | case6 body => simp [Piece.text, Place.text]
  | case7 body rest ih =>
    rw [List.flatMap_cons, List.flatMap_cons, ih]
    simp [Piece.text, Place.text]
  | case8 body c rest _ ih =>
    rw [ih]
    simp [Place.text]
  | case9 body => simp [Piece.text, Place.text]
  | case10 body c => simp [Piece.text, Place.text]
  | case11 body c d rest h ih =>
    rw [List.flatMap_cons, ih, h.1, h.2]
    simp [Piece.text, Place.text]
  | case12 body c d rest _ ih =>
    rw [ih]
    simp [Place.text]

end

/-! ### The output of the machine -/

/-- How many stars a comment has in front of the star and the slash that close it. -/
def stars (body : List Byte) : Nat := (body.reverse.takeWhile (· = STAR)).length

/-- A comment that the machine closes: its stars, with the one before the slash, are an odd
number. -/
def Closes (body : List Byte) : Prop := stars body % 2 = 0

instance Closes.decidable (body : List Byte) : Decidable (Closes body) :=
  inferInstanceAs (Decidable (_ = 0))

/-- One star more. -/
theorem stars_star (body : List Byte) : stars (body ++ [STAR]) = stars body + 1 := by
  rw [stars, List.reverse_append, List.reverse_singleton, List.singleton_append,
    List.takeWhile_cons_of_pos (by decide), List.length_cons]
  rfl

/-- Behind another byte there are no stars. -/
theorem closes_of_ne {c : Byte} (h : c ≠ STAR) (body : List Byte) : Closes (body ++ [c]) := by
  rw [Closes, stars, List.reverse_append, List.reverse_singleton, List.singleton_append,
    List.takeWhile_cons_of_neg (by simpa using h)]
  rfl

/-- What the machine puts out for these pieces. A slash at the end is lost, and behind a comment
that it does not close it is still in the comment. -/
def written : List Piece → List Byte
  | [] => []
  | [.byte c] => if c = SLASH then [] else [c]
  | .byte c :: ps => c :: written ps
  | .block body :: ps =>
    if Closes body then written ps else deleteLoop .block (ps.flatMap Piece.text)
  | .line _ :: ps => written ps
  | .unclosed _ :: ps => written ps

/-- Any byte but a slash is written. -/
theorem written_byte_of_ne {c : Byte} (h : c ≠ SLASH) (ps : List Piece) :
    written (.byte c :: ps) = c :: written ps := by
  cases ps with
  | nil => exact if_neg h
  | cons p ps => rfl

/-- One step of the machine. -/
theorem deleteLoop_cons {c : Byte} (hc : c ≠ EOF_BYTE) (state : State) (input : List Byte) :
    deleteLoop state (c :: input) = (step state c).2 ++ deleteLoop (step state c).1 input := by
  rw [deleteLoop, if_neg hc]

/-- In each state the machine puts out what is left to be written of the pieces. A slash in front
of the input, or a star in a comment, is still to be decided. -/
structure Follows (input : List Byte) : Prop where
  text : deleteLoop .text input = written (scan .outside input)
  slash : deleteLoop .slash input = written (scan .outside (SLASH :: input))
  line : ∀ body, deleteLoop .line input = written (scan (.line body) input)
  block : ∀ body, Closes body → deleteLoop .block input = written (scan (.block body) input)
  star : ∀ body, Closes body → deleteLoop .star input = written (scan (.block body) (STAR :: input))

/-- At the end of the input. -/
theorem Follows.nil : Follows [] where
  text := rfl
  slash := rfl
  line _ := rfl
  block _ _ := rfl
  star _ _ := rfl

section
variable {c : Byte} {input : List Byte} (h : Follows input) (hc : c ≠ EOF_BYTE)
include h hc

/-- In the text, by the first byte. -/
theorem Follows.text_cons :
    deleteLoop .text (c :: input) = written (scan .outside (c :: input)) := by
  rw [deleteLoop_cons hc]
  by_cases hslash : c = SLASH
  · subst hslash
    exact h.slash
  · rw [scan_outside_of_ne hslash, written_byte_of_ne hslash, ← h.text, step, if_neg hslash]
    rfl

/-- Behind a slash, by the first byte. -/
theorem Follows.slash_cons :
    deleteLoop .slash (c :: input) = written (scan .outside (SLASH :: c :: input)) := by
  rw [deleteLoop_cons hc]
  by_cases hslash : c = SLASH
  · subst hslash
    rw [scan_slash_slash]
    exact h.line []
  · by_cases hstar : c = STAR
    · subst hstar
      rw [scan_slash_star]
      exact h.block [] rfl
    · rw [scan_slash_of_ne hslash hstar, step, if_neg hslash, if_neg hstar]
      show SLASH :: c :: deleteLoop .text input = SLASH :: written (.byte c :: scan .outside input)
      rw [written_byte_of_ne hslash, h.text]

/-- In a comment up to the end of the line, by the first byte. -/
theorem Follows.line_cons (body : List Byte) :
    deleteLoop .line (c :: input) = written (scan (.line body) (c :: input)) := by
  rw [deleteLoop_cons hc, scan_line_cons]
  by_cases hnewline : c = NEWLINE
  · rw [if_pos hnewline, step, if_pos hnewline]
    show c :: deleteLoop .text input = written (.byte c :: scan .outside input)
    rw [written_byte_of_ne (by rw [hnewline]; decide), h.text]
  · rw [if_neg hnewline, step, if_neg hnewline]
    exact h.line _

/-- In a comment with stars, by the first byte. -/
theorem Follows.block_cons (body : List Byte) (hbody : Closes body) :
    deleteLoop .block (c :: input) = written (scan (.block body) (c :: input)) := by
  rw [deleteLoop_cons hc]
  by_cases hstar : c = STAR
  · subst hstar
    exact h.star body hbody
  · rw [scan_block_of_ne hstar, step, if_neg hstar]
    exact h.block _ (closes_of_ne hstar body)

end

/-- Behind two stars the machine waits for a star again, and misses the slash. -/
theorem Follows.star_star {input : List Byte} (h : Follows input) (body : List Byte)
    (hbody : Closes body) :
    deleteLoop .block input = written (scan (.block (body ++ [STAR])) (STAR :: input)) := by
  have htwo : Closes (body ++ [STAR] ++ [STAR]) := by
    rw [Closes] at hbody ⊢
    rw [stars_star, stars_star]
    omega
  cases input with
  | nil => rfl
  | cons d input =>
    by_cases hslash : d = SLASH
    · have hone : ¬Closes (body ++ [STAR]) := by
        rw [Closes] at hbody ⊢
        rw [stars_star]
        omega
      subst hslash
      rw [scan_block_star_slash, written, if_neg hone, flatMap_text_scan]
      exact deleteLoop_cons (by decide) _ _
    · rw [scan_block_star_of_ne hslash]
      exact h.block _ htwo

/-- Behind a star in a comment, by the first byte. -/
theorem Follows.star_cons {c : Byte} {input : List Byte} (h : Follows input) (hc : c ≠ EOF_BYTE)
    (body : List Byte) (hbody : Closes body) :
    deleteLoop .star (c :: input) = written (scan (.block body) (STAR :: c :: input)) := by
  rw [deleteLoop_cons hc]
  by_cases hslash : c = SLASH
  · subst hslash
    rw [scan_block_star_slash, written, if_pos hbody]
    exact h.text
  · rw [scan_block_star_of_ne hslash, step, if_neg hslash]
    by_cases hstar : c = STAR
    · subst hstar
      exact h.star_star body hbody
    · rw [scan_block_of_ne hstar]
      exact h.block _ (closes_of_ne hstar _)

/-- By induction on the input. -/
theorem follows {input : List Byte} (h : EOF_BYTE ∉ input) : Follows input := by
  induction input with
  | nil => exact Follows.nil
  | cons c input ih =>
    rw [List.mem_cons, not_or] at h
    have hc : c ≠ EOF_BYTE := Ne.symm h.1
    have hrest := ih h.2
    exact ⟨hrest.text_cons hc, hrest.slash_cons hc, hrest.line_cons hc, hrest.block_cons hc,
      hrest.star_cons hc⟩

/-- The part of the input that the machine reads. -/
def readPart (input : List Byte) : List Byte := input.takeWhile (· ≠ EOF_BYTE)

/-- The part that is read has no `EOF` in it. -/
theorem not_mem_readPart (input : List Byte) : EOF_BYTE ∉ readPart input := by
  intro h
  simpa using List.mem_takeWhile_imp h

/-- Nothing behind the `EOF` matters. -/
theorem deleteLoop_readPart (state : State) (input : List Byte) :
    deleteLoop state input = deleteLoop state (readPart input) := by
  induction input generalizing state with
  | nil => rfl
  | cons c input ih =>
    by_cases hc : c = EOF_BYTE
    · rw [readPart, List.takeWhile_cons_of_neg (by simpa using hc)]
      exact if_pos hc
    · rw [readPart, List.takeWhile_cons_of_pos (by simpa using hc), deleteLoop_cons hc,
        deleteLoop_cons hc, ih]
      rfl

/-- What the machine puts out for an input. -/
theorem deleteComment_eq (input : List Byte) :
    deleteComment input = written (pieces (readPart input)) := by
  rw [deleteComment, deleteLoop_readPart]
  exact (follows (not_mem_readPart input)).text

/-! ### When the comments are removed -/

/-- The machine closes all these comments. -/
def AllClose (ps : List Piece) : Prop := ∀ body, .block body ∈ ps → Closes body

/-- The comments behind the first piece. -/
theorem AllClose.tail {p : Piece} {ps : List Piece} (h : AllClose (p :: ps)) : AllClose ps :=
  fun body hmem => h body (List.mem_cons_of_mem _ hmem)

/-- In front of further pieces the machine puts out what is kept. -/
theorem written_append {ps : List Piece} (h : AllClose ps) (q : Piece) (qs : List Piece) :
    written (ps ++ q :: qs) = ps.flatMap Piece.kept ++ written (q :: qs) := by
  induction ps with
  | nil => rfl
  | cons p ps ih =>
    have hrest := ih h.tail
    rw [List.cons_append, List.flatMap_cons, List.append_assoc, ← hrest]
    cases p with
    | byte c =>
      cases ps with
      | nil => rfl
      | cons p ps => rfl
    | line body => rfl
    | block body =>
      have hbody : Closes body := h body List.mem_cons_self
      rw [written, if_pos hbody]
      rfl
    | unclosed body => rfl

/-- The machine puts out what is kept of a last piece, unless it is a slash. -/
theorem kept_eq_written {ps : List Piece} (h : AllClose ps) :
    ps.flatMap Piece.kept
      = written ps ++ if ps.getLast? = some (.byte SLASH) then [SLASH] else [] := by
  cases hlast : ps.getLast? with
  | none =>
    rw [List.getLast?_eq_none_iff.mp hlast]
    rfl
  | some q =>
    obtain ⟨front, rfl⟩ := List.getLast?_eq_some_iff.mp hlast
    have hfront : AllClose front := fun body hmem => h body (List.mem_append_left _ hmem)
    rw [written_append hfront, List.flatMap_append, List.append_assoc]
    refine congrArg (front.flatMap Piece.kept ++ ·) ?_
    cases q with
    | byte c =>
      by_cases hc : c = SLASH
      · rw [hc]
        rfl
      · rw [if_neg fun heq => hc (Piece.byte.inj (Option.some.inj heq))]
        show [c] = (if c = SLASH then [] else [c]) ++ []
        rw [if_neg hc]
        rfl
    | line body => rfl
    | block body =>
      have hbody : Closes body := h body (List.mem_append_right _ List.mem_cons_self)
      rw [written, if_pos hbody]
      rfl
    | unclosed body => rfl

/-- A byte that is no part of the ends of a comment leaves what is kept in front of it. -/
theorem kept_scan_prefix (place : Place) (front rest : List Byte) :
    (scan place front).flatMap Piece.kept
      <+: (scan place (front ++ EOF_BYTE :: rest)).flatMap Piece.kept := by
  fun_induction scan place front with
  | case1 => exact List.nil_prefix
  | case2 c =>
    show [c] <+: (scan .outside (c :: EOF_BYTE :: rest)).flatMap Piece.kept
    rw [scan_outside_cons_cons, if_neg fun h => absurd h.2 (by decide),
      if_neg fun h => absurd h.2 (by decide)]
    exact List.prefix_append [c] _
  | case3 c d l h ih =>
    rw [List.cons_append, List.cons_append, scan_outside_cons_cons, if_pos h]
    exact ih
  | case4 c d l hno h ih =>
    rw [List.cons_append, List.cons_append, scan_outside_cons_cons, if_neg hno, if_pos h]
    exact ih
  | case5 c d l hno hno' ih =>
    rw [List.cons_append, List.cons_append, scan_outside_cons_cons, if_neg hno, if_neg hno']
    exact (List.prefix_append_right_inj [c]).mpr ih
  | case6 body => exact List.nil_prefix
  | case7 body l ih =>
    rw [List.cons_append, scan_line_cons, if_pos rfl]
    exact (List.prefix_append_right_inj [NEWLINE]).mpr ih
  | case8 body c l hno ih =>
    rw [List.cons_append, scan_line_cons, if_neg hno]
    exact ih
  | case9 body => exact List.nil_prefix
  | case10 body c => exact List.nil_prefix
  | case11 body c d l h ih =>
    rw [List.cons_append, List.cons_append, scan_block_cons_cons, if_pos h]
    exact ih
  | case12 body c d l hno ih =>
    rw [List.cons_append, List.cons_append, scan_block_cons_cons, if_neg hno]
    exact ih

/-- Without its comments, the part that is read is a front part of the input. -/
theorem removeComments_readPart_prefix (input : List Byte) :
    removeComments (readPart input) <+: removeComments input := by
  have hsplit := List.takeWhile_append_dropWhile (p := (· ≠ EOF_BYTE)) (l := input)
  cases hrest : input.dropWhile (· ≠ EOF_BYTE) with
  | nil =>
    rw [hrest, List.append_nil] at hsplit
    rw [readPart, hsplit]
  | cons c rest =>
    have hc : c = EOF_BYTE := by simpa using eq_false_of_dropWhile_cons hrest
    rw [hrest, hc] at hsplit
    have hprefix := kept_scan_prefix .outside (readPart input) rest
    rwa [readPart, hsplit] at hprefix

/-- Without a star the machine stays in the comment. -/
theorem deleteLoop_block_of_not_mem {input : List Byte} (h : STAR ∉ input) :
    deleteLoop .block input = [] := by
  induction input with
  | nil => rfl
  | cons c input ih =>
    rw [List.mem_cons, not_or] at h
    by_cases hc : c = EOF_BYTE
    · rw [deleteLoop, if_pos hc]
    · rw [deleteLoop_cons hc, step, if_neg (Ne.symm h.1)]
      exact ih h.2

/-- When the machine closes all comments it reads, its output is the text without comments exactly
if what it reads does not end in a slash outside of comments, and all that it does not read is in
comments. When there is a first comment that it does not close, and no star behind it, its output
is right exactly if all that follows is in comments. -/
theorem deleteComment_removes_iff (input : List Byte) :
    (AllClose (pieces (readPart input)) →
      (deleteComment input = removeComments input ↔
        (pieces (readPart input)).getLast? ≠ some (.byte SLASH)
          ∧ removeComments (readPart input) = removeComments input))
      ∧ ∀ ps body qs, EOF_BYTE ∉ input → pieces input = ps ++ .block body :: qs → AllClose ps →
        ¬Closes body → STAR ∉ qs.flatMap Piece.text →
          (deleteComment input = removeComments input ↔ qs.flatMap Piece.kept = []) := by
  constructor
  · intro hclose
    have hkept := kept_eq_written hclose
    have hprefix := removeComments_readPart_prefix input
    rw [deleteComment_eq]
    constructor
    · intro heq
      have hlen := hprefix.length_le
      rw [← heq, removeComments, hkept, List.length_append] at hlen
      by_cases hlast : (pieces (readPart input)).getLast? = some (.byte SLASH)
      · rw [if_pos hlast, List.length_singleton] at hlen
        omega
      · rw [if_neg hlast, List.append_nil] at hkept
        exact ⟨hlast, hkept.trans heq⟩
    · rintro ⟨hlast, hrest⟩
      rw [if_neg hlast, List.append_nil] at hkept
      exact hkept.symm.trans hrest
  · intro ps body qs heof hpieces hclose hbody hstar
    have hread : readPart input = input := by
      refine List.takeWhile_eq_self_iff.mpr fun c hc => ?_
      exact decide_eq_true fun h => heof (h ▸ hc)
    rw [deleteComment_eq, hread, removeComments, hpieces, written_append hclose, written,
      if_neg hbody, deleteLoop_block_of_not_mem hstar, List.flatMap_append, List.append_right_inj,
      List.flatMap_cons]
    exact eq_comm

/-- The text `a/b //c`, and a comment with two stars at its end in front of a newline. -/
theorem deleteComment_removes_both :
    deleteComment [0x61, 0x2F, 0x62, 0x20, 0x2F, 0x2F, 0x63]
        = removeComments [0x61, 0x2F, 0x62, 0x20, 0x2F, 0x2F, 0x63]
      ∧ deleteComment [0x2F, 0x2A, 0x2A, 0x2A, 0x2F, 0x0A]
        ≠ removeComments [0x2F, 0x2A, 0x2A, 0x2A, 0x2F, 0x0A] := by
  constructor
  · refine ((deleteComment_removes_iff _).1 ?_).mpr (by decide)
    have hpieces : pieces (readPart [0x61, 0x2F, 0x62, 0x20, 0x2F, 0x2F, 0x63])
        = [.byte 0x61, .byte 0x2F, .byte 0x62, .byte 0x20, .line [0x63]] := by decide
    intro body hmem
    rw [hpieces] at hmem
    simp at hmem
  · intro heq
    have hnil := ((deleteComment_removes_iff [0x2F, 0x2A, 0x2A, 0x2A, 0x2F, 0x0A]).2 []
      [STAR] [.byte NEWLINE] (by decide) (by decide)
      (fun _ hmem => absurd hmem List.not_mem_nil) (by decide) (by decide)).mp heq
    exact absurd hnil (by decide)

/-- Three texts that come out wrong: a comment that ends in two stars and a slash, a slash at the
end, and the byte 0xFF. -/
theorem deleteComment_wrong :
    deleteComment [0x2F, 0x2A, 0x2A, 0x2A, 0x2F, 0x61]
        ≠ removeComments [0x2F, 0x2A, 0x2A, 0x2A, 0x2F, 0x61]
      ∧ deleteComment [0x61, 0x2F] ≠ removeComments [0x61, 0x2F]
      ∧ deleteComment [0xFF, 0x61] ≠ removeComments [0xFF, 0x61] := by
  decide

end LearnGit.Proofs.Fsm
