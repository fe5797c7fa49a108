import LearnGit.DynamicProgramming.ZigZag
import Mathlib.Data.Int.Order.Basic
import Mathlib.Order.Bounds.Basic
import Mathlib.Tactic.Linarith

/-!
# `LearnGit.Proofs.DynamicProgramming.ZigZag`: the zigzag is a longest one

`longestZigZag_greatest`: for every sequence that is not empty, `longestZigZag` returns the greatest
length of a zigzag in it.

`Against dir a s` says that the steps of `a :: s` change direction every time, and that the first
one goes against `dir`. The second loop counts the steps of a longest such zigzag
(`turns_greatest`): where the sequence goes on in the direction `dir`, a zigzag that starts at the
element before may as well start at this one, and where it turns, the two elements are a step. A
zigzag goes against the first direction of the sequence or against the opposite one, and the code
has the greater one of the two counts.
-/

set_option autoImplicit false

namespace LearnGit.Proofs.DynamicProgramming.ZigZag

open LearnGit.DynamicProgramming.ZigZag

/-! ### Statement -/

/-- The successive differences are not zero and their signs alternate. -/
def IsZigZag (sub : List Int) : Prop :=
  (∀ d ∈ differences sub, d ≠ 0) ∧ (differences sub).IsChain fun d e => d * e < 0

/-- The lengths of the zigzags among the subsequences. -/
def zigZagLengths (sequence : List Int) : Set Nat :=
  {n | ∃ sub : List Int, sub.Sublist sequence ∧ IsZigZag sub ∧ sub.length = n}

/-! ### Zigzags with a first direction -/

/-- The steps from `a` through `s` change direction every time, the first one against `dir`. -/
def Against (dir a : Int) : List Int → Prop
  | [] => True
  | b :: s => (b - a) * dir < 0 ∧ Against (-dir) b s

variable {dir d a b x : Int} {s l : List Int}

/-- The first difference is the one of the first two numbers. -/
theorem differences_cons_cons (a b : Int) (l : List Int) :
    differences (a :: b :: l) = (b - a) :: differences (b :: l) := rfl

/-- Only the sign of the direction counts. -/
theorem Against.congr {dir' : Int} (h : ∀ x : Int, x * dir < 0 ↔ x * dir' < 0) (a : Int)
    (s : List Int) : Against dir a s ↔ Against dir' a s := by
  induction s generalizing dir dir' a with
  | nil => exact Iff.rfl
  | cons b s ih =>
    refine and_congr (h _) (ih (fun x => ?_) b)
    rw [Int.mul_neg, ← Int.neg_mul, h, Int.neg_mul, Int.mul_neg]

/-- Behind a step against `dir`, the next one goes against this step. -/
theorem against_step (hstep : d * dir < 0) (a : Int) (s : List Int) :
    Against d a s ↔ Against (-dir) a s := by
  refine Against.congr (fun x => ?_) a s
  rw [Int.mul_neg_iff] at hstep ⊢
  rw [Int.mul_neg_iff]
  omega

/-- A zigzag may start further in the direction that it goes against. -/
theorem Against.start (h : Against dir a s) (hb : 0 ≤ (b - a) * dir) : Against dir b s := by
  cases s with
  | nil => trivial
  | cons c s =>
    refine ⟨?_, h.2⟩
    have hstep : (c - a) * dir < 0 := h.1
    linarith

/-- A zigzag begins with a change and goes on against it. -/
theorem isZigZag_cons_cons (a b : Int) (s : List Int) :
    IsZigZag (a :: b :: s) ↔ b - a ≠ 0 ∧ Against (b - a) b s := by
  induction s generalizing a b with
  | nil => simp [IsZigZag, Against, differences]
  | cons c s ih =>
    have htail : IsZigZag (a :: b :: c :: s)
        ↔ b - a ≠ 0 ∧ (b - a) * (c - b) < 0 ∧ IsZigZag (b :: c :: s) := by
      simp only [IsZigZag, differences_cons_cons, List.isChain_cons_cons, List.forall_mem_cons]
      tauto
    rw [htail, ih, Against, Int.mul_comm]
    refine and_congr_right fun _ => and_congr_right fun hstep => ?_
    rw [against_step hstep]
    -- A step that is zero does not change the direction.
    refine and_iff_right ?_
    rintro hzero
    rw [hzero, Int.zero_mul] at hstep
    exact absurd hstep (lt_irrefl 0)

/-- The first step of a zigzag goes in one of the two directions. -/
theorem isZigZag_iff (hd : d ≠ 0) (a : Int) (s : List Int) :
    IsZigZag (a :: s) ↔ Against d a s ∨ Against (-d) a s := by
  cases s with
  | nil => simp [IsZigZag, Against, differences]
  | cons b s =>
    rw [isZigZag_cons_cons, Against, Against]
    have hsign : b - a ≠ 0 ↔ (b - a) * d < 0 ∨ (b - a) * -d < 0 := by
      rw [Int.mul_neg_iff, Int.mul_neg_iff]
      omega
    rw [hsign, or_and_right]
    refine or_congr ?_ ?_
    · exact and_congr_right fun hstep => against_step hstep b s
    · exact and_congr_right fun hstep => against_step hstep b s

/-! ### Counting the turns -/

/-- The number of the rounds of the second loop that change the direction. -/
def turns (dir : Int) : List Int → Nat
  | [] => 0
  | d :: ds => if d * dir < 0 then turns (-dir) ds + 1 else turns dir ds

/-- The loop adds the turns to the length. -/
theorem foldl_turnRound (ds : List Int) (dir : Int) (len : Nat) :
    (ds.foldl turnRound ⟨dir, len⟩).len = len + turns dir ds := by
  induction ds generalizing dir len with
  | nil => rfl
  | cons d ds ih =>
    rw [List.foldl_cons, turnRound, turns]
    by_cases hturn : d * dir < 0
    · rw [if_pos hturn, if_pos hturn, ih]
      simp only [Int.mul_neg, Int.mul_one]
      omega
    · rw [if_neg hturn, if_neg hturn, ih]

/-- No zero is a turn. -/
theorem turns_dropWhile (dir : Int) (ds : List Int) :
    turns dir (ds.dropWhile (· == 0)) = turns dir ds := by
  induction ds with
  | nil => rfl
  | cons d ds ih =>
    by_cases hd : d = 0
    · rw [List.dropWhile_cons_of_pos (by simpa using hd), ih, turns, if_neg]
      simp [hd]
    · rw [List.dropWhile_cons_of_neg (by simpa using hd)]

/-- The numbers of steps of the zigzags in a sequence whose first step goes against `dir`. -/
def stepsAgainst (dir : Int) (sequence : List Int) : Set Nat :=
  {n | ∃ a s, (a :: s).Sublist sequence ∧ Against dir a s ∧ s.length = n}

/-- Where the sequence does not turn, its first element is not needed. -/
theorem stepsAgainst_of_not_turn (h : ¬(b - a) * dir < 0) :
    stepsAgainst dir (a :: b :: l) = stepsAgainst dir (b :: l) := by
  ext n
  constructor
  · rintro ⟨x, s, hsub, hagainst, rfl⟩
    rcases List.sublist_cons_iff.mp hsub with hsub | ⟨r, heq, hr⟩
    · exact ⟨x, s, hsub, hagainst, rfl⟩
    · obtain ⟨rfl, rfl⟩ := List.cons.inj heq
      refine ⟨b, s, ?_, hagainst.start (not_lt.mp h), rfl⟩
      -- The second element of the zigzag is not `b`, since the sequence does not turn there.
      rcases List.sublist_cons_iff.mp hr with hr | ⟨r, rfl, -⟩
      · exact hr.cons_cons b
      · exact absurd hagainst.1 h
  · rintro ⟨x, s, hsub, hagainst, rfl⟩
    exact ⟨x, s, hsub.trans (List.sublist_cons_self a _), hagainst, rfl⟩

/-- At a turn, a zigzag in the rest is longer by one step. -/
theorem stepsAgainst_of_turn {n : Nat} (h : (b - a) * dir < 0)
    (hn : n ∈ stepsAgainst (-dir) (b :: l)) : n + 1 ∈ stepsAgainst dir (a :: b :: l) := by
  obtain ⟨x, s, hsub, hagainst, rfl⟩ := hn
  by_cases hx : (x - a) * dir < 0
  · exact ⟨a, x :: s, hsub.cons_cons a, ⟨hx, hagainst⟩, rfl⟩
  · -- It starts on the wrong side of `a`, and may start at `b` as well.
    have hb : 0 ≤ (b - x) * -dir := by linarith
    exact ⟨a, b :: s, (hsub.tail.cons_cons b).cons_cons a, ⟨h, hagainst.start hb⟩, rfl⟩

/-- The turns are the steps of a longest zigzag that starts against `dir`. -/
theorem turns_greatest (l : List Int) (dir a : Int) :
    IsGreatest (stepsAgainst dir (a :: l)) (turns dir (differences (a :: l))) := by
  induction l generalizing dir a with
  | nil =>
    refine ⟨⟨a, [], List.Sublist.refl _, trivial, rfl⟩, ?_⟩
    rintro n ⟨x, s, hsub, -, rfl⟩
    exact Nat.le_of_succ_le_succ hsub.length_le
  | cons b l ih =>
    rw [differences_cons_cons, turns]
    by_cases hturn : (b - a) * dir < 0
    · rw [if_pos hturn]
      refine ⟨stepsAgainst_of_turn hturn (ih (-dir) b).1, ?_⟩
      rintro n ⟨x, s, hsub, hagainst, rfl⟩
      cases s with
      | nil => exact Nat.zero_le _
      | cons c s =>
        -- Without its first element, it is a zigzag in the rest that starts against `-dir`.
        exact Nat.succ_le_succ ((ih (-dir) b).2 ⟨c, s, hsub.tail, hagainst.2, rfl⟩)
    · rw [if_neg hturn, stepsAgainst_of_not_turn hturn]
      exact ih dir b

/-! ### The theorem -/

/-- The zigzags are those that start against one of the two directions. -/
theorem zigZagLengths_greatest (hd : d ≠ 0) (a : Int) (l : List Int)
    (hle : turns d (differences (a :: l)) ≤ turns (-d) (differences (a :: l))) :
    IsGreatest (zigZagLengths (a :: l)) (turns (-d) (differences (a :: l)) + 1) := by
  constructor
  · obtain ⟨x, s, hsub, hagainst, hlength⟩ := (turns_greatest l (-d) a).1
    refine ⟨x :: s, hsub, (isZigZag_iff hd x s).mpr (.inr hagainst), ?_⟩
    rw [List.length_cons, hlength]
  · rintro n ⟨sub, hsub, hzigzag, rfl⟩
    cases sub with
    | nil => exact Nat.zero_le _
    | cons x s =>
      rw [List.length_cons]
      rcases (isZigZag_iff hd x s).mp hzigzag with hagainst | hagainst
      · have hmax := (turns_greatest l d a).2 ⟨x, s, hsub, hagainst, rfl⟩
        omega
      · have hmax := (turns_greatest l (-d) a).2 ⟨x, s, hsub, hagainst, rfl⟩
        omega

/-- The differences decide, from the first one that is not zero. -/
theorem longestZigZag_cons (a : Int) (l : List Int) : longestZigZag (a :: l)
    = match (differences (a :: l)).dropWhile (· == 0) with
      | [] => some 1
      | d :: rest => some (rest.foldl turnRound ⟨d, 2⟩).len := by
  cases l <;> rfl

/-- For every sequence with an element, `longestZigZag` returns the length of a longest subsequence
whose successive differences are not zero and alternate in sign. -/
theorem longestZigZag_greatest (a : Int) (l : List Int) :
    ∃ n, longestZigZag (a :: l) = some n ∧ IsGreatest (zigZagLengths (a :: l)) n := by
  rw [longestZigZag_cons]
  have hturns : ∀ dir, turns dir ((differences (a :: l)).dropWhile (· == 0))
      = turns dir (differences (a :: l)) := fun dir => turns_dropWhile dir _
  cases hdrop : (differences (a :: l)).dropWhile (· == 0) with
  | nil =>
    -- All elements are equal, and there is no turn in either direction.
    rw [hdrop] at hturns
    refine ⟨1, rfl, ?_⟩
    have hgreatest := zigZagLengths_greatest one_ne_zero a l (by rw [← hturns, ← hturns]; rfl)
    rwa [← hturns] at hgreatest
  | cons d rest =>
    have hd : d ≠ 0 := by
      have hhead := List.head_dropWhile_not (· == 0)
        (l := differences (a :: l)) (by simp [hdrop])
      simpa [hdrop] using hhead
    rw [hdrop] at hturns
    -- The first step is no turn against itself, and is one against the opposite direction.
    have hsame : turns d (differences (a :: l)) = turns d rest := by
      rw [← hturns, turns, if_neg (not_lt.mpr (mul_self_nonneg d))]
    have hback : turns (-d) (differences (a :: l)) = turns d rest + 1 := by
      have hsquare : 0 < d * d := mul_self_pos.mpr hd
      rw [← hturns, turns, if_pos (by linarith), neg_neg]
    have hgreatest := zigZagLengths_greatest hd a l (by omega)
    rw [hback] at hgreatest
    refine ⟨_, rfl, ?_⟩
    rw [foldl_turnRound, Nat.add_comm 2]
    exact hgreatest

end LearnGit.Proofs.DynamicProgramming.ZigZag
