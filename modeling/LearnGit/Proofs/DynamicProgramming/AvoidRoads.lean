import LearnGit.DynamicProgramming.AvoidRoads
import LearnGit.Lib.GridRoutes
import LearnGit.Proofs.FileTransfer.TextHeader

/-!
# `LearnGit.Proofs.DynamicProgramming.AvoidRoads`: when the three solutions agree

`numWays_agree_iff`: the three solutions return the same number, and none of them reads outside its
table, for exactly the bad roads that meet three conditions. The road up from the origin is bad,
since `AvoidRoads.cpp` reads `D[-1][1]` otherwise. Some route is left, since it returns -1 and not
0 for none. And no route is left by a vertical road whose upper end is given first, which the
player does not take for bad.

`AvoidRoads_improve.cpp` always returns the number of routes (`numWaysImprove_eq`). It and the
player add the ways to a point to the two points behind it (`Pushes`), and `AvoidRoads.cpp` takes
them from the two points before it (`waysCell_eq`).
-/

set_option autoImplicit false

namespace LearnGit.Proofs.DynamicProgramming.AvoidRoads

open LearnGit.Lib
open LearnGit.DynamicProgramming.AvoidRoads

/-! ### Statement -/

/-- A bad road on the grid, as it begins at `(x, y)`. `reversed` says that its text names the end
further from the origin first. -/
structure BadRoad (width height : Nat) where
  x : Nat
  y : Nat
  step : Step
  reversed : Bool
  x_le : x + step.dx ≤ width
  y_le : y + step.dy ≤ height

/-- The text that is given for the road. -/
def BadRoad.text {width height : Nat} (r : BadRoad width height) : Text :=
  if r.reversed then segmentText (r.x + r.step.dx) (r.y + r.step.dy) r.x r.y
  else segmentText r.x r.y (r.x + r.step.dx) (r.y + r.step.dy)

/-- It is the road that begins at `(x, y)` with the step `s`. -/
def BadRoad.At {width height : Nat} (r : BadRoad width height) (x y : Nat) (s : Step) : Prop :=
  r.x = x ∧ r.y = y ∧ r.step = s

instance {width height : Nat} (r : BadRoad width height) (x y : Nat) (s : Step) :
    Decidable (r.At x y s) := by
  unfold BadRoad.At
  infer_instance

/-- The roads that are not bad. -/
def freeRoad {width height : Nat} (bad : List (BadRoad width height)) (x y : Nat) (s : Step) :
    Bool :=
  bad.all fun r => ¬ r.At x y s

/-- The roads that the player does not take for bad: a vertical one counts only if its lower end is
given first. -/
def freeForPlayer {width height : Nat} (bad : List (BadRoad width height)) (x y : Nat)
    (s : Step) : Bool :=
  bad.all fun r => ¬ (r.At x y s ∧ (s = .right ∨ r.reversed = false))

/-! ### The texts -/

section Texts

variable {width height : Nat}

/-- A token has a character, and none of them is a space or a NUL. -/
def Token (w : Text) : Prop := w ≠ [] ∧ ∀ c ∈ w, c ≠ 0x20 ∧ c ≠ 0

/-- A number is one token. -/
theorem token_printNat (n : Nat) : Token (printNat 10 n) := by
  refine ⟨printNat_ne_nil 10 n, ?_⟩
  intro c hc
  obtain ⟨d, hd, rfl⟩ := mem_printNat (by omega) n c hc
  obtain ⟨-, -, hnul, hspace, -⟩ := FileTransfer.TextHeader.digitByte_table ⟨d, hd⟩
  refine ⟨?_, hnul⟩
  intro heq
  simp only at hspace
  rw [heq] at hspace
  exact absurd hspace (by decide)

/-- No space is skipped in front of a token. -/
theorem Token.skipSpaces {w : Text} (h : Token w) (rest : Text) :
    skipSpaces (w ++ rest) = w ++ rest := by
  obtain ⟨hne, hw⟩ := h
  cases w with
  | nil => exact absurd rfl hne
  | cons c cs =>
    rw [List.cons_append]
    exact List.dropWhile_cons_of_neg (by simpa using (hw c List.mem_cons_self).1)

/-- A token has no space. -/
theorem Token.all_ne {w : Text} (h : Token w) : ∀ c ∈ w, (c != 0x20) = true := by
  intro c hc
  simpa using (h.2 c hc).1

/-- The loop of `tokenize` takes the next token. -/
theorem tokenizeLoop_cons {w rest : Text} (h : Token w) :
    tokenizeLoop (w ++ 0x20 :: rest) = w :: tokenizeLoop (skipSpaces rest) := by
  have hne : w ++ 0x20 :: rest ≠ [] := by simp
  rw [tokenizeLoop, dif_neg hne, List.takeWhile_append_of_pos h.all_ne,
    List.dropWhile_append_of_pos h.all_ne]
  congr 1
  · rw [List.takeWhile_cons_of_neg (by decide), List.append_nil]

/-- The last token has nothing behind it. -/
theorem tokenizeLoop_last {w : Text} (h : Token w) : tokenizeLoop w = [w] := by
  rw [tokenizeLoop, dif_neg h.1, List.takeWhile_eq_self_iff.mpr h.all_ne,
    List.dropWhile_eq_nil_iff.mpr h.all_ne, skipSpaces, List.dropWhile_nil, tokenizeLoop,
    dif_pos rfl]

/-- The text of a segment has no NUL. -/
theorem cStr_segmentText (a b c d : Nat) : cStr (segmentText a b c d) = segmentText a b c d := by
  rw [cStr, List.takeWhile_eq_self_iff]
  intro x hx
  simp only [segmentText, List.mem_append, List.mem_cons] at hx
  rcases hx with hx | rfl | hx | rfl | hx | rfl | hx
  · exact decide_eq_true ((token_printNat a).2 x hx).2
  · rfl
  · exact decide_eq_true ((token_printNat b).2 x hx).2
  · rfl
  · exact decide_eq_true ((token_printNat c).2 x hx).2
  · rfl
  · exact decide_eq_true ((token_printNat d).2 x hx).2

/-- The text of a segment has its four numbers as tokens. -/
theorem tokenize_segmentText (a b c d : Nat) : tokenize (segmentText a b c d)
    = [printNat 10 a, printNat 10 b, printNat 10 c, printNat 10 d] := by
  rw [tokenize, cStr_segmentText, segmentText, (token_printNat a).skipSpaces,
    tokenizeLoop_cons (token_printNat a), (token_printNat b).skipSpaces,
    tokenizeLoop_cons (token_printNat b), (token_printNat c).skipSpaces,
    tokenizeLoop_cons (token_printNat c)]
  have hlast := (token_printNat d).skipSpaces []
  rw [List.append_nil] at hlast
  rw [hlast, tokenizeLoop_last (token_printNat d)]

/-- A number is read as it was written. -/
theorem atoi_printNat (n : Nat) : FileTransfer.TextHeader.atoi (printNat 10 n) = n := by
  have hread := FileTransfer.TextHeader.atoi_padZeros 0 n
  rwa [padZeros, Nat.zero_sub, List.replicate_zero, List.nil_append] at hread

/-- The player reads the numbers that were written. -/
theorem sti_segmentText (a b c d : Nat) :
    sti (tokenize (segmentText a b c d)) = [(a : Int), (b : Int), (c : Int), (d : Int)] := by
  rw [tokenize_segmentText]
  simp only [sti, List.map_cons, List.map_nil, atoi_printNat]

/-- The text of a segment determines its numbers. -/
theorem segmentText_inj {a b c d a' b' c' d' : Nat} :
    segmentText a b c d = segmentText a' b' c' d' ↔ a = a' ∧ b = b' ∧ c = c' ∧ d = d' := by
  constructor
  · intro h
    have hsti := sti_segmentText a b c d
    rw [h, sti_segmentText] at hsti
    simp only [List.cons.injEq, Nat.cast_inj, and_true] at hsti
    omega
  · rintro ⟨rfl, rfl, rfl, rfl⟩
    rfl

/-- The search for a segment ends behind the last text exactly when none names it. -/
theorem badIndex_eq_length {bad : List Text} {a b c d : Nat} :
    badIndex bad a b c d = bad.length
      ↔ ∀ text ∈ bad, text ≠ segmentText a b c d ∧ text ≠ segmentText c d a b := by
  rw [badIndex, List.findIdx_eq_length]
  refine forall₂_congr fun text _ => ?_
  rw [Bool.or_eq_false_iff, beq_eq_false_iff_ne, beq_eq_false_iff_ne]

/-- A step goes one unit. -/
theorem Step.dx_add_dy (s : Step) : s.dx + s.dy = 1 := by
  cases s <;> rfl

/-- A road is the one between two points if its text has these, in either order. -/
theorem BadRoad.at_iff (r : BadRoad width height) (x y : Nat) (s : Step) :
    r.At x y s ↔ r.text = segmentText x y (x + s.dx) (y + s.dy) ∨
      r.text = segmentText (x + s.dx) (y + s.dy) x y := by
  -- With one of the two coordinates moving, equality of the texts is linear arithmetic.
  have hr := Step.dx_add_dy r.step
  have hs := Step.dx_add_dy s
  have hstep : r.step = s ↔ r.step.dx = s.dx := by
    cases r.step <;> cases s <;> decide
  rw [BadRoad.At, hstep, BadRoad.text]
  split
  · rw [segmentText_inj, segmentText_inj]
    omega
  · rw [segmentText_inj, segmentText_inj]
    omega

/-- The search for a road among the texts, by whether it is free. -/
theorem badIndex_texts (bad : List (BadRoad width height)) (x y : Nat) (s : Step) :
    (badIndex (bad.map BadRoad.text) x y (x + s.dx) (y + s.dy)
      == (bad.map BadRoad.text).length) = freeRoad bad x y s := by
  rw [Bool.eq_iff_iff, beq_iff_eq, badIndex_eq_length, freeRoad, List.all_eq_true,
    List.forall_mem_map]
  refine forall₂_congr fun r _ => ?_
  rw [decide_eq_true_iff, r.at_iff, not_or]

/-- A road is bad where a text names it. -/
theorem isBad_texts (bad : List (BadRoad width height)) (x y : Nat) (s : Step) :
    isBad (bad.map BadRoad.text) x y (x + s.dx) (y + s.dy) = !freeRoad bad x y s := by
  rw [← badIndex_texts, isBad]
  cases bad with
  | nil => rfl
  | cons r bad => rfl

/-- What the player inserts for a road. -/
def BadRoad.pairs (r : BadRoad width height) : List Segment :=
  if r.reversed then
    [((((r.x + r.step.dx : Nat) : Int), ((r.y + r.step.dy : Nat) : Int)), ((r.x : Int), (r.y : Int))),
      (((r.x : Int), ((r.y + r.step.dy : Nat) : Int)),
        (((r.x + r.step.dx : Nat) : Int), ((r.y + r.step.dy : Nat) : Int)))]
  else
    [(((r.x : Int), (r.y : Int)), (((r.x + r.step.dx : Nat) : Int), ((r.y + r.step.dy : Nat) : Int))),
      ((((r.x + r.step.dx : Nat) : Int), (r.y : Int)), ((r.x : Int), (r.y : Int)))]

/-- The player reads the pairs of a road from its text. -/
theorem ntPairs_text (r : BadRoad width height) : ntPairs r.text = some r.pairs := by
  rw [BadRoad.text, BadRoad.pairs]
  split
  · rw [ntPairs, sti_segmentText]
  · rw [ntPairs, sti_segmentText]

/-- The player reads the pairs of all roads. -/
theorem ntOf_texts (bad : List (BadRoad width height)) :
    ntOf (bad.map BadRoad.text) = some (bad.flatMap BadRoad.pairs) := by
  have hmap : (bad.map BadRoad.text).mapM ntPairs = some (bad.map BadRoad.pairs) := by
    induction bad with
    | nil => rfl
    | cons r bad ih =>
      rw [List.map_cons, List.mapM_cons, ntPairs_text, ih]
      rfl
  rw [ntOf, hmap, Option.map_some, List.flatMap_def]

/-- A road upwards or to the right is among the pairs as its text gives it. -/
theorem BadRoad.mem_pairs (r : BadRoad width height) (x y : Nat) (s : Step) :
    (((x : Int), (y : Int)), (((x + s.dx : Nat) : Int), ((y + s.dy : Nat) : Int))) ∈ r.pairs
      ↔ r.At x y s ∧ (s = .right ∨ r.reversed = false) := by
  have hr := Step.dx_add_dy r.step
  have hs := Step.dx_add_dy s
  have hstep : r.step = s ↔ r.step.dx = s.dx := by
    cases r.step <;> cases s <;> decide
  have hright : s = .right ↔ s.dx = 1 := by
    cases s <;> decide
  rw [BadRoad.At, hstep, hright, BadRoad.pairs]
  split
  · -- Given from its upper end, a vertical road is inserted downwards only: the second pair takes
    -- `s[1]` for both of its points.
    rename_i hrev
    simp only [List.mem_cons, List.not_mem_nil, or_false, Prod.mk.injEq, Nat.cast_inj, hrev,
      Bool.true_eq_false]
    omega
  · rename_i hrev
    rw [Bool.not_eq_true] at hrev
    simp only [List.mem_cons, List.not_mem_nil, or_false, Prod.mk.injEq, Nat.cast_inj, hrev,
      or_true, and_true]
    omega

/-- The player finds a road among its pairs where it takes it for bad. -/
theorem contains_pairs (bad : List (BadRoad width height)) (x y : Nat) (s : Step) :
    (bad.flatMap BadRoad.pairs).contains
      (((x : Int), (y : Int)), (((x + s.dx : Nat) : Int), ((y + s.dy : Nat) : Int)))
      = !freeForPlayer bad x y s := by
  rw [Bool.eq_iff_iff, List.contains_iff_mem, List.mem_flatMap, Bool.not_eq_true',
    freeForPlayer, List.all_eq_false]
  refine exists_congr fun r => and_congr_right fun _ => ?_
  rw [r.mem_pairs, decide_eq_true_iff, not_not]

/-- The player takes no free road for bad. -/
theorem freeForPlayer_of_free (bad : List (BadRoad width height)) (x y : Nat) (s : Step)
    (h : freeRoad bad x y s) : freeForPlayer bad x y s := by
  rw [freeForPlayer, List.all_eq_true]
  intro r hr
  rw [freeRoad, List.all_eq_true] at h
  have hat := h r hr
  rw [decide_eq_true_iff] at hat ⊢
  exact fun hseen => hat hseen.1

end Texts

/-! ### Tables -/

section Tables

variable {t : Table} {i j : Nat}

/-- A read within the table. -/
theorem read_of_lt (hi : i < t.rows) (hj : j < t.columns) :
    t.read i j = some (t.cell i j) := by
  have hinside : t.Inside i j := ⟨by omega, by omega, by omega, by omega⟩
  rw [Table.read, if_pos hinside, Int.toNat_natCast, Int.toNat_natCast]

/-- The cells with another number at `(i, j)`. -/
def setCell (c : Nat → Nat → Int) (i j : Nat) (x : Int) (a b : Nat) : Int :=
  if a = i ∧ b = j then x else c a b

/-- An assignment within the table. -/
theorem write_of_lt (hi : i < t.rows) (hj : j < t.columns) (x : Int) :
    t.write i j x = some { t with cell := setCell t.cell i j x } := by
  have hinside : t.Inside i j := ⟨by omega, by omega, by omega, by omega⟩
  have hcells : (fun a b : Nat => if (a : Int) = i ∧ (b : Int) = j then x else t.cell a b)
      = setCell t.cell i j x := by
    funext a b
    rw [setCell]
    refine if_congr ?_ rfl rfl
    rw [Nat.cast_inj, Nat.cast_inj]
  rw [Table.write, if_pos hinside, hcells]

/-- An addition within the table. -/
theorem addTo_of_lt {tx ty : Nat} (htx : tx < t.rows) (hty : ty < t.columns) (hi : i < t.rows)
    (hj : j < t.columns) : t.addTo tx ty i j
      = some { t with cell := setCell t.cell tx ty (t.cell tx ty + t.cell i j) } := by
  rw [Table.addTo, read_of_lt htx hty, read_of_lt hi hj]
  exact write_of_lt htx hty _

end Tables

/-! ### The ways are added to the points behind -/

section Push

variable {free : Nat → Nat → Step → Bool} {W H width height : Nat}

/-- The table has the points up to `(W, H)`. -/
def Shape (W H : Nat) (t : Table) : Prop := t.rows = W + 1 ∧ t.columns = H + 1

/-- What the innermost loop does at `(i, j)`: the ways there are added to the two points behind it,
where the roads are free and the points are in the table. -/
def Pushes (free : Nat → Nat → Step → Bool) (W H i j : Nat) (t t' : Table) : Prop :=
  Shape W H t' ∧ ∀ a ≤ W, ∀ b ≤ H, t'.cell a b = t.cell a b
    + ((if a = i + 1 ∧ b = j ∧ free i j .right then t.cell i j else 0)
      + if a = i ∧ b = j + 1 ∧ free i j .up then t.cell i j else 0)

/-- A loop with two rounds. -/
theorem forUpM_two {f : Nat → Table → Option Table} {t : Table} :
    forUpM 0 2 f t = (f 0 t).bind (f 1) := by
  rw [forUpM_succ (Nat.zero_le 1), forUpM_succ (Nat.le_refl 0), forUpM_self]
  rfl

/-- An addition that is made under a condition stays within the table. -/
theorem exists_addTo {i j tx ty : Nat} {t : Table} {go : Bool} (ht : Shape W H t) (hi : i ≤ W)
    (hj : j ≤ H) (hgo : go → tx ≤ W ∧ ty ≤ H) :
    ∃ t', (if go then t.addTo tx ty i j else some t) = some t' ∧ Shape W H t' ∧
      ∀ a b, t'.cell a b = t.cell a b + if a = tx ∧ b = ty ∧ go then t.cell i j else 0 := by
  obtain ⟨hrows, hcolumns⟩ := ht
  cases go with
  | true =>
    have hle := hgo rfl
    rw [if_pos rfl, addTo_of_lt (by omega) (by omega) (by omega) (by omega)]
    refine ⟨_, rfl, ⟨hrows, hcolumns⟩, ?_⟩
    intro a b
    simp only [setCell, and_true]
    split
    · rename_i hab
      rw [hab.1, hab.2]
    · rw [Int.add_zero]
  | false =>
    refine ⟨t, rfl, ⟨hrows, hcolumns⟩, ?_⟩
    intro a b
    rw [if_neg (by simp), Int.add_zero]

/-- An innermost loop adds where `go` says so. -/
theorem pushes_of_go {i j : Nat} {t : Table} (go : Step → Bool) {f : Nat → Table → Option Table}
    (hi : i ≤ W) (hj : j ≤ H) (ht : Shape W H t)
    (hright : go .right ↔ i + 1 ≤ W ∧ free i j .right) (hup : go .up ↔ j + 1 ≤ H ∧ free i j .up)
    (hf0 : ∀ t, f 0 t = if go .right then t.addTo (i + 1) j i j else some t)
    (hf1 : ∀ t, f 1 t = if go .up then t.addTo i (j + 1) i j else some t) :
    ∃ t', forUpM 0 2 f t = some t' ∧ Pushes free W H i j t t' := by
  obtain ⟨t₁, hfirst, hshape₁, hcell₁⟩ :=
    exists_addTo ht hi hj (fun hgo => ⟨(hright.mp hgo).1, hj⟩)
  obtain ⟨t₂, hsecond, hshape, hcell₂⟩ :=
    exists_addTo hshape₁ hi hj (fun hgo => ⟨hi, (hup.mp hgo).1⟩)
  -- The first addition does not change the point itself, so the second one adds the same number.
  have hhere : t₁.cell i j = t.cell i j := by
    rw [hcell₁, if_neg (by omega), Int.add_zero]
  refine ⟨t₂, ?_, hshape, ?_⟩
  · rw [forUpM_two, hf0, hfirst, Option.bind_some, hf1, hsecond]
  · intro a ha b hb
    rw [hcell₂, hhere, hcell₁, Int.add_assoc]
    congr 2
    · refine if_congr ?_ rfl rfl
      rw [hright]
      constructor
      · rintro ⟨ha', hb', -, hfree⟩
        exact ⟨ha', hb', hfree⟩
      · rintro ⟨ha', hb', hfree⟩
        exact ⟨ha', hb', by omega, hfree⟩
    · refine if_congr ?_ rfl rfl
      rw [hup]
      constructor
      · rintro ⟨ha', hb', -, hfree⟩
        exact ⟨ha', hb', hfree⟩
      · rintro ⟨ha', hb', hfree⟩
        exact ⟨ha', hb', by omega, hfree⟩

/-- The ways to the points before `(i, j)` in the order of the loops. -/
def waysBefore (free : Nat → Nat → Step → Bool) (height i j a b : Nat) : Int :=
  if b ≤ height ∧ (a < i ∨ a = i ∧ b < j) then ways free a b else 0

/-- Before the round of `(i, j)` each point has the ways that arrived from the points before. -/
def Pushed (free : Nat → Nat → Step → Bool) (W H height i j : Nat) (t : Table) : Prop :=
  Shape W H t ∧ ∀ a ≤ W, ∀ b ≤ H,
    t.cell a b = atOrigin a b + incoming free (waysBefore free height i j) a b

/-- A point has all its ways when it is reached. -/
theorem Pushed.cell_eq {i j a b : Nat} {t : Table} (h : Pushed free W H height i j t) (ha : a ≤ W)
    (hb : b ≤ H) (hheight : b ≤ height) (hdone : a < i ∨ a = i ∧ b ≤ j) :
    t.cell a b = ways free a b := by
  rw [h.2 a ha b hb, ways_eq]
  congr 1
  refine incoming_congr ?_ ?_
  · rintro a' rfl
    rw [waysBefore, if_pos (by omega)]
  · rintro b' rfl
    rw [waysBefore, if_pos (by omega)]

/-- The round of a point passes its ways on. -/
theorem Pushed.step {i j : Nat} {t t' : Table} (h : Pushed free W H height i j t) (hi : i ≤ W)
    (hj : j ≤ height) (hH : height ≤ H) (ht' : Pushes free W H i j t t') :
    Pushed free W H height i (j + 1) t' := by
  refine ⟨ht'.1, ?_⟩
  intro a ha b hb
  -- The round adds one point to those before: `(i, j)`, which has all its ways by now.
  have hbefore : waysBefore free height i (j + 1) = fun a b =>
      waysBefore free height i j a b + if a = i ∧ b = j then (ways free i j : Int) else 0 := by
    funext a b
    simp only [waysBefore]
    by_cases hat : a = i ∧ b = j
    · rw [if_pos hat, if_pos (by omega), if_neg (by omega), hat.1, hat.2, Int.zero_add]
    · rw [if_neg hat, Int.add_zero]
      refine if_congr ?_ rfl rfl
      omega
  rw [ht'.2 a ha b hb, h.2 a ha b hb, hbefore, incoming_add, incoming_single,
    h.cell_eq hi (by omega) hj (Or.inr ⟨rfl, Nat.le_refl j⟩)]
  omega

/-- The end of a row is the start of the next one. -/
theorem Pushed.next_row {i : Nat} {t : Table} (h : Pushed free W H height i (height + 1) t) :
    Pushed free W H height (i + 1) 0 t := by
  have hbefore : waysBefore free height (i + 1) 0 = waysBefore free height i (height + 1) := by
    funext a b
    simp only [waysBefore]
    refine if_congr ?_ rfl rfl
    omega
  refine ⟨h.1, ?_⟩
  rw [hbefore]
  exact h.2

/-- The three loops leave the number of ways at the last point. -/
theorem pushed_loops {body : Nat → Nat → Table → Option Table} {t : Table} (hW : width ≤ W)
    (hH : height ≤ H)
    (hbody : ∀ i j t, i ≤ width → j ≤ height → Shape W H t →
      ∃ t', body i j t = some t' ∧ Pushes free W H i j t t')
    (ht : Shape W H t) (hstart : ∀ a b, t.cell a b = atOrigin a b) :
    ∃ t', forUpM 0 (width + 1) (fun i => forUpM 0 (height + 1) (body i)) t = some t' ∧
      t'.read width height = some (ways free width height : Int) := by
  have hinit : Pushed free W H height 0 0 t := by
    refine ⟨ht, ?_⟩
    intro a _ b _
    -- Nothing is before the origin, so nothing arrived.
    have hnone : incoming free (waysBefore free height 0 0) a b = incoming free (fun _ _ => 0) a b :=
      incoming_congr (fun a' _ => if_neg (by omega)) (fun b' _ => if_neg (by omega))
    have hzero : incoming free (fun _ _ => 0) a b = 0 := by
      simpa using incoming_single (v := 0) (x := a) (y := b) 0 0
    rw [hstart, hnone, hzero, Int.add_zero]
  have hstep : ∀ i j t, i < width + 1 → j < height + 1 → Pushed free W H height i j t →
      ∃ t', body i j t = some t' ∧ Pushed free W H height i (j + 1) t' := by
    intro i j t hi hj hcell
    obtain ⟨t', hround, hpushes⟩ := hbody i j t (by omega) (by omega) hcell.1
    exact ⟨t', hround, hcell.step (by omega) (by omega) hH hpushes⟩
  obtain ⟨t', hloop, hpushed⟩ := forUpM_nested hinit hstep fun _ _ => Pushed.next_row
  refine ⟨t', hloop, ?_⟩
  obtain ⟨hrows, hcolumns⟩ := hpushed.1
  rw [read_of_lt (by omega) (by omega),
    hpushed.cell_eq hW hH (Nat.le_refl height) (Or.inl (Nat.lt_succ_self width))]

end Push

/-! ### The number of ways -/

section Solutions

variable {width height : Nat}

/-- The roads between points that no text names, in either order. -/
def freeText (bad : List Text) (x y : Nat) (s : Step) : Bool :=
  badIndex bad x y (x + s.dx) (y + s.dy) == bad.length

/-- A step of `AvoidRoads_improve.cpp`, along a road that stays in the grid and is not named. -/
theorem improveStep_eq (bad : List Text) (i j : Nat) {k : Nat} {s : Step} (hdx : dx k = s.dx)
    (hdy : dy k = s.dy) (t : Table) : improveStep width height bad i j k t
      = if (decide (i + s.dx ≤ width ∧ j + s.dy ≤ height) && freeText bad i j s)
        then t.addTo (i + s.dx) (j + s.dy) i j else some t := by
  rw [improveStep, hdx, hdy, bne, ← freeText]
  by_cases hin : i + s.dx ≤ width ∧ j + s.dy ≤ height
  · rw [if_neg (by omega), decide_eq_true hin, Bool.true_and]
    cases freeText bad i j s <;> rfl
  · rw [if_pos (by omega), decide_eq_false hin, Bool.false_and]
    rfl

/-- A step of the player, along a road that it does not take for bad. -/
theorem playerStep_eq (bad : List (BadRoad width height)) (x y : Nat) {k : Nat} {s : Step}
    (hdx : dx k = s.dx) (hdy : dy k = s.dy) (t : Table) :
    playerStep (bad.flatMap BadRoad.pairs) x y k t
      = if freeForPlayer bad x y s then t.addTo (x + s.dx) (y + s.dy) x y else some t := by
  have hcontains := contains_pairs bad x y s
  rw [playerStep, hdx, hdy, hcontains]
  cases freeForPlayer bad x y s <;> rfl

/-- One way begins at the origin. -/
theorem write_origin {rows columns : Nat} (hrows : 0 < rows) (hcolumns : 0 < columns) :
    (Table.fill rows columns 0).write 0 0 1 = some ⟨rows, columns, atOrigin⟩ :=
  write_of_lt (t := Table.fill rows columns 0) hrows hcolumns 1

/-- `AvoidRoads_improve.cpp` counts the routes along the roads that are not named. -/
theorem numWaysImprove_texts (width height : Nat) (bad : List Text) :
    numWaysImprove width height bad = some (ways (freeText bad) width height : Int) := by
  have hbody : ∀ i j t, i ≤ width → j ≤ height → Shape width height t →
      ∃ t', forUpM 0 2 (fun k => improveStep width height bad i j k) t = some t' ∧
        Pushes (freeText bad) width height i j t t' := by
    intro i j t hi hj ht
    refine pushes_of_go (fun s =>
      decide (i + s.dx ≤ width ∧ j + s.dy ≤ height) && freeText bad i j s) hi hj ht ?_ ?_ ?_ ?_
    · simp [Step.dx, Step.dy, hj]
    · simp [Step.dx, Step.dy, hi]
    · exact improveStep_eq bad i j rfl rfl
    · exact improveStep_eq bad i j rfl rfl
  obtain ⟨t', hloop, hread⟩ := pushed_loops (Nat.le_refl width) (Nat.le_refl height) hbody
    (t := ⟨width + 1, height + 1, atOrigin⟩) ⟨rfl, rfl⟩ (fun _ _ => rfl)
  rw [numWaysImprove, write_origin (Nat.succ_pos width) (Nat.succ_pos height)]
  simp only [Option.bind_eq_bind, Option.bind_some]
  rw [hloop]
  exact hread

/-- `AvoidRoads_improve.cpp` returns the number of ways along the free roads. -/
theorem numWaysImprove_eq (bad : List (BadRoad width height)) :
    numWaysImprove width height (bad.map BadRoad.text)
      = some (ways (freeRoad bad) width height : Int) := by
  have hfree : freeText (bad.map BadRoad.text) = freeRoad bad := by
    funext x y s
    exact badIndex_texts bad x y s
  rw [numWaysImprove_texts, hfree]

/-- The player counts the routes along the roads that it does not take for bad. -/
theorem numWaysPlayer_eq (hwidth : width ≤ 100) (hheight : height ≤ 100)
    (bad : List (BadRoad width height)) :
    numWaysPlayer ansInit width height (bad.map BadRoad.text)
      = some (ways (freeForPlayer bad) width height : Int) := by
  have hbody : ∀ x y t, x ≤ width → y ≤ height → Shape 101 101 t →
      ∃ t', forUpM 0 2 (fun k => playerStep (bad.flatMap BadRoad.pairs) x y k) t = some t' ∧
        Pushes (freeForPlayer bad) 101 101 x y t t' := by
    intro x y t hx hy ht
    refine pushes_of_go (freeForPlayer bad x y) (by omega) (by omega) ht ?_ ?_ ?_ ?_
    · exact ⟨fun hfree => ⟨by omega, hfree⟩, fun h => h.2⟩
    · exact ⟨fun hfree => ⟨by omega, hfree⟩, fun h => h.2⟩
    · exact playerStep_eq bad x y rfl rfl
    · exact playerStep_eq bad x y rfl rfl
  obtain ⟨t', hloop, hread⟩ := pushed_loops (W := 101) (H := 101) (by omega) (by omega) hbody
    (t := ⟨102, 102, atOrigin⟩) ⟨rfl, rfl⟩ (fun _ _ => rfl)
  rw [numWaysPlayer, ansInit, write_origin (by omega) (by omega)]
  simp only [Option.bind_eq_bind, Option.bind_some]
  rw [ntOf_texts, Option.bind_some, hloop]
  exact hread

/-! ### The cells of `AvoidRoads.cpp` -/

/-- How `AvoidRoads.cpp` writes a number of ways. -/
def code (n : Nat) : Int := if n = 0 then -1 else n

/-- The code -1 stands for no way. -/
theorem code_eq_neg_one {n : Nat} : code n = -1 ↔ n = 0 := by
  rw [code]
  split <;> omega

/-- Any other number stands for itself. -/
theorem code_of_ne_zero {n : Nat} (h : n ≠ 0) : code n = n := if_neg h

/-- Before the round of `(i, j)` the cells before it have their numbers. -/
def Coded (free : Nat → Nat → Step → Bool) (width height i j : Nat) (D : Table) : Prop :=
  Shape width height D ∧ ∀ a b, b ≤ height → (a < i ∨ a = i ∧ b < j) →
    D.cell a b = code (ways free a b)

/-- A cell that is done has the code of its number. -/
theorem Coded.read {free : Nat → Nat → Step → Bool} {i j a b : Nat} {D : Table}
    (h : Coded free width height i j D) (ha : a ≤ width) (hb : b ≤ height)
    (hdone : a < i ∨ a = i ∧ b < j) : D.read a b = some (code (ways free a b)) := by
  obtain ⟨hrows, hcolumns⟩ := h.1
  rw [read_of_lt (by omega) (by omega), h.2 a b hb hdone]

/-- The test for -1 is one for no way. -/
theorem code_beq (n : Nat) : (code n == -1) = decide (n = 0) := by
  rw [Bool.eq_iff_iff, beq_iff_eq, decide_eq_true_iff]
  exact code_eq_neg_one

/-- A point is cut off by a bad road or by the cell before. -/
theorem orCutOff_eq {free : Bool} {D : Table} {i j n : Nat} (h : D.read i j = some (code n)) :
    orCutOff (!free) D i j = some (decide ((if free then n else 0) = 0)) := by
  cases free with
  | false => rfl
  | true =>
    rw [orCutOff, Bool.not_true, if_neg (by decide), h, Option.map_some, code_beq]
    rfl

/-- The four cases of a cell with two cells before it. -/
theorem combine_eq (left down : Bool) (n m : Nat) (write : Int → Option Table) :
    (if (!left && !down) || (code n == -1 && code m == -1) || (!left && code m == -1) ||
        (code n == -1 && !down) then write (-1)
      else if !left || code n == -1 then write (code m)
      else if !down || code m == -1 then write (code n)
      else write (code n + code m))
      = write (code ((if left then n else 0) + if down then m else 0)) := by
  rw [code_beq, code_beq]
  by_cases hn : n = 0
  · by_cases hm : m = 0
    · cases left <;> cases down <;> simp [hn, hm, code]
    · cases left <;> cases down <;> simp [hn, hm, code]
  · by_cases hm : m = 0
    · cases left <;> cases down <;> simp [hn, hm, code]
    · cases left <;> cases down <;> simp [hn, hm, code]

/-- No way goes straight up where the first road is bad. -/
theorem ways_zero_of_cut {free : Nat → Nat → Step → Bool} (hcut : free 0 0 .up = false) (y : Nat) :
    ways free 0 (y + 1) = 0 := by
  induction y with
  | zero => rw [ways, hcut, if_neg (by decide)]
  | succ y ih => rw [ways, ih, ite_self]

section Cells

variable {bad : List (BadRoad width height)} {D : Table}

/-- A cell above the origin, where the road up from there is bad. The first one is cut off by that
road, and the others by the cell before. -/
theorem waysCell_above (hcut : freeRoad bad 0 0 .up = false) {j : Nat}
    (h : Coded (freeRoad bad) width height 0 (j + 1) D) (hj : j + 1 ≤ height) :
    waysCell (bad.map BadRoad.text) 0 (j + 1) D
      = D.write (0 : Nat) (j + 1 : Nat) (code (ways (freeRoad bad) 0 (j + 1))) := by
  have hbad := isBad_texts bad 0 j .up
  have hcast : ((j + 1 : Nat) : Int) - 1 = (j : Nat) := by omega
  have hways := ways_zero_of_cut hcut j
  have hcutOff : orCutOff (!freeRoad bad 0 j .up) D (0 : Nat) j = some true := by
    rw [orCutOff_eq (h.read (by omega) (by omega) (Or.inr ⟨rfl, Nat.lt_succ_self j⟩))]
    rw [ways] at hways
    rw [hways]
    rfl
  rw [waysCell, if_neg (by omega), if_neg (by omega), if_pos ⟨rfl, by omega⟩, Nat.add_sub_cancel,
    hcast]
  simp only [Step.dx, Step.dy, Nat.add_zero] at hbad
  rw [hbad, hcutOff, hways]
  rfl

/-- A cell right of the origin. -/
theorem waysCell_right {i : Nat} (h : Coded (freeRoad bad) width height (i + 1) 0 D)
    (hi : i + 1 ≤ width) : waysCell (bad.map BadRoad.text) (i + 1) 0 D
      = D.write (i + 1 : Nat) (0 : Nat) (code (ways (freeRoad bad) (i + 1) 0)) := by
  have hcast : ((i + 1 : Nat) : Int) - 1 = (i : Nat) := by omega
  have hbad := isBad_texts bad i 0 .right
  have hleft := h.read (by omega) (Nat.zero_le height) (Or.inl (Nat.lt_succ_self i))
  simp only [Step.dx, Step.dy, Nat.add_zero] at hbad
  rw [waysCell, if_neg (by omega), if_pos ⟨by omega, rfl⟩, Nat.add_sub_cancel, hcast, hbad,
    orCutOff_eq hleft, ways]
  simp only [Option.bind_eq_bind, Option.bind_some, decide_eq_true_eq]
  by_cases hnone : (if freeRoad bad i 0 .right then ways (freeRoad bad) i 0 else 0) = 0
  · rw [if_pos hnone, hnone]
    rfl
  · rw [if_neg hnone]
    have hfree : freeRoad bad i 0 .right = true := by
      by_contra hnot
      exact hnone (if_neg hnot)
    rw [if_pos hfree] at hnone ⊢
    rw [hleft, Option.bind_some, if_pos (fun heq => hnone (code_eq_neg_one.mp heq))]

/-- A cell with two cells before it. -/
theorem waysCell_inner {i j : Nat} (h : Coded (freeRoad bad) width height (i + 1) (j + 1) D)
    (hi : i + 1 ≤ width) (hj : j + 1 ≤ height) :
    waysCell (bad.map BadRoad.text) (i + 1) (j + 1) D
      = D.write (i + 1 : Nat) (j + 1 : Nat) (code (ways (freeRoad bad) (i + 1) (j + 1))) := by
  have hcast : ((i + 1 : Nat) : Int) - 1 = (i : Nat) := by omega
  have hcast' : ((j + 1 : Nat) : Int) - 1 = (j : Nat) := by omega
  have hleftBad := badIndex_texts bad i (j + 1) .right
  have hdownBad := badIndex_texts bad (i + 1) j .up
  have hleft := h.read (a := i) (b := j + 1) (by omega) hj (Or.inl (Nat.lt_succ_self i))
  have hdown := h.read (a := i + 1) (b := j) hi (by omega) (Or.inr ⟨rfl, Nat.lt_succ_self j⟩)
  simp only [Step.dx, Step.dy, Nat.add_zero] at hleftBad hdownBad
  rw [waysCell, if_neg (by omega), if_neg (by omega), if_neg (by omega), Nat.add_sub_cancel,
    Nat.add_sub_cancel, hcast, hcast', hleftBad, hdownBad, hleft, hdown, ways]
  exact combine_eq _ _ _ _ (D.write _ _)

/-- The number that is written, where the road up from the origin is bad. -/
theorem waysCell_eq (hcut : freeRoad bad 0 0 .up = false) {i j : Nat}
    (h : Coded (freeRoad bad) width height i j D) (hi : i ≤ width) (hj : j ≤ height) :
    waysCell (bad.map BadRoad.text) i j D = D.write i j (code (ways (freeRoad bad) i j)) := by
  cases i with
  | zero =>
    cases j with
    | zero =>
      rw [waysCell, if_pos ⟨rfl, rfl⟩, ways]
      rfl
    | succ j => exact waysCell_above hcut h hj
  | succ i =>
    cases j with
    | zero => exact waysCell_right h hi
    | succ j => exact waysCell_inner h hi hj

end Cells

/-- The round of a cell gives it its number. -/
theorem Coded.step {bad : List (BadRoad width height)} (hcut : freeRoad bad 0 0 .up = false)
    {i j : Nat} {D : Table} (h : Coded (freeRoad bad) width height i j D) (hi : i ≤ width)
    (hj : j ≤ height) : ∃ D', waysCell (bad.map BadRoad.text) i j D = some D' ∧
      Coded (freeRoad bad) width height i (j + 1) D' := by
  obtain ⟨hrows, hcolumns⟩ := h.1
  rw [waysCell_eq hcut h hi hj, write_of_lt (by omega) (by omega)]
  refine ⟨_, rfl, ⟨hrows, hcolumns⟩, ?_⟩
  intro a b hb hdone
  show setCell _ _ _ _ _ _ = _
  rw [setCell]
  split
  · rename_i hab
    rw [hab.1, hab.2]
  · exact h.2 a b hb (by omega)

/-- `AvoidRoads.cpp` is right where the road up from the origin is bad. -/
theorem numWays_of_cut {bad : List (BadRoad width height)} (hcut : freeRoad bad 0 0 .up = false) :
    numWays width height (bad.map BadRoad.text)
      = some (code (ways (freeRoad bad) width height)) := by
  have hinit : Coded (freeRoad bad) width height 0 0 (Table.fill (width + 1) (height + 1) (-2)) := by
    refine ⟨⟨rfl, rfl⟩, ?_⟩
    intro a b _ hdone
    omega
  have hnext : ∀ i D, Coded (freeRoad bad) width height i (height + 1) D →
      Coded (freeRoad bad) width height (i + 1) 0 D := by
    intro i D hcoded
    exact ⟨hcoded.1, fun a b hb hdone => hcoded.2 a b hb (by omega)⟩
  obtain ⟨D', hloop, hcoded⟩ := forUpM_nested hinit
    (fun i j D hi hj hcell => hcell.step hcut (Nat.le_of_lt_succ hi) (Nat.le_of_lt_succ hj)) hnext
  rw [numWays, hloop]
  exact hcoded.read (Nat.le_refl width) (Nat.le_refl height) (Or.inl (Nat.lt_succ_self width))

/-- Where that road is not bad, the cell left of the table is read. -/
theorem waysCell_outside {bad : List Text} (hbad : isBad bad 0 0 0 1 = false) {D : Table}
    (horigin : D.read 0 0 = some 1) : waysCell bad 0 1 D = none := by
  have houtside : D.read (-1) 1 = none := if_neg fun hinside => absurd hinside.1 (by decide)
  rw [waysCell, if_neg (by omega), if_neg (by omega), if_pos ⟨rfl, by omega⟩]
  simp [orCutOff, hbad, horigin, houtside]

/-- Where the road up from the origin is not bad, the cell left of `D[0][1]` is read. -/
theorem numWays_of_free {bad : List (BadRoad width height)} (hfree : freeRoad bad 0 0 .up = true)
    (hheight : 1 ≤ height) : numWays width height (bad.map BadRoad.text) = none := by
  have hbad : isBad (bad.map BadRoad.text) 0 0 0 1 = false := by
    have htexts := isBad_texts bad 0 0 .up
    rw [hfree] at htexts
    exact htexts
  -- The second round of the first row is the one that reads `D[-1][1]`.
  have hfirst : ∀ D : Table, Shape width height D →
      forUpM 0 2 (fun j => waysCell (bad.map BadRoad.text) 0 j) D = none := by
    intro D hD
    obtain ⟨hrows, hcolumns⟩ := hD
    have hwrite : D.write 0 0 1 = some { D with cell := setCell D.cell 0 0 1 } :=
      write_of_lt (i := 0) (j := 0) (by omega) (by omega) 1
    rw [forUpM_two, waysCell, if_pos ⟨rfl, rfl⟩, hwrite, Option.bind_some]
    refine waysCell_outside hbad ?_
    exact read_of_lt (t := { D with cell := setCell D.cell 0 0 1 }) (i := 0) (j := 0)
      (by simp only; omega) (by simp only; omega)
  have hrow : forUpM 0 1 (fun i => forUpM 0 (height + 1) fun j =>
      waysCell (bad.map BadRoad.text) i j) (Table.fill (width + 1) (height + 1) (-2)) = none := by
    rw [forUpM_succ (Nat.le_refl 0), forUpM_self, Option.bind_some]
    exact forUpM_none_of_le (Nat.zero_le 2) (by omega) (hfirst _ ⟨rfl, rfl⟩)
  rw [numWays, forUpM_none_of_le (Nat.zero_le 1) (Nat.le_add_left 1 width) hrow]
  rfl

end Solutions

/-! ### The theorem -/

/-- The three solutions return the same number, and none reads outside its table, if and only if
the road up from the origin is bad, some route avoids all bad roads, and so does every route that
avoids the bad roads the player knows. -/
theorem numWays_agree_iff {width height : Nat} (hwidth : 1 ≤ width ∧ width ≤ 100)
    (hheight : 1 ≤ height ∧ height ≤ 100) (bad : List (BadRoad width height)) :
    (∃ n, numWays width height (bad.map BadRoad.text) = some n ∧
        numWaysPlayer ansInit width height (bad.map BadRoad.text) = some n ∧
        numWaysImprove width height (bad.map BadRoad.text) = some n)
      ↔ (∃ r ∈ bad, r.At 0 0 .up) ∧ (∃ route, Route (freeRoad bad) width height route) ∧
        ∀ route, Route (freeForPlayer bad) width height route →
          Route (freeRoad bad) width height route := by
  rw [numWaysImprove_eq, numWaysPlayer_eq hwidth.2 hheight.2, ← ways_pos,
    ← ways_eq_ways_iff (freeForPlayer_of_free bad)]
  have hcut : (∃ r ∈ bad, r.At 0 0 .up) ↔ freeRoad bad 0 0 .up = false := by
    rw [freeRoad, List.all_eq_false]
    refine exists_congr fun r => and_congr_right fun _ => ?_
    rw [decide_eq_true_iff, not_not]
  rw [hcut]
  constructor
  · rintro ⟨n, hn, hplayer, himprove⟩
    cases hfree : freeRoad bad 0 0 .up with
    | true =>
      rw [numWays_of_free hfree hheight.1] at hn
      exact absurd hn (by simp)
    | false =>
      rw [numWays_of_cut hfree, Option.some.injEq] at hn
      rw [Option.some.injEq] at hplayer himprove
      -- Without a route `AvoidRoads.cpp` returns -1, and `AvoidRoads_improve.cpp` returns 0.
      have hpos : ways (freeRoad bad) width height ≠ 0 := by
        intro hzero
        rw [hzero, code] at hn
        rw [hzero] at himprove
        omega
      exact ⟨rfl, by omega, by omega⟩
  · rintro ⟨hfree, hpos, heq⟩
    refine ⟨_, numWays_of_cut hfree, ?_, ?_⟩
    · rw [code_of_ne_zero (by omega), heq]
    · rw [code_of_ne_zero (by omega)]

/-- `AvoidRoads.cpp` reads outside its table where no road is bad. -/
theorem numWays_no_bad_road : ¬ ∃ n, numWays 1 1 [] = some n ∧
    numWaysPlayer ansInit 1 1 [] = some n ∧ numWaysImprove 1 1 [] = some n := by
  rintro ⟨n, hn, -⟩
  have hnone : numWays 1 1 [] = none := by decide
  rw [hnone] at hn
  exact absurd hn (by simp)

/-- Two roads as those of `main`, the second one given from its end. -/
theorem numWays_agree_iff_main : (1 ≤ 1 ∧ 1 ≤ 100) ∧
    ∃ n, numWays 1 1 [segmentText 0 0 0 1, segmentText 1 1 0 1] = some n ∧
      numWaysPlayer ansInit 1 1 [segmentText 0 0 0 1, segmentText 1 1 0 1] = some n ∧
      numWaysImprove 1 1 [segmentText 0 0 0 1, segmentText 1 1 0 1] = some n := by
  refine ⟨by decide, (numWays_agree_iff (by decide) (by decide)
    [⟨0, 0, .up, false, by decide, by decide⟩, ⟨0, 1, .right, true, by decide, by decide⟩]).mpr
    ⟨⟨_, List.mem_cons_self, by decide⟩, ⟨[.up, .right], ?_⟩, ?_⟩⟩
  · exact Route.up (Route.right Route.nil (by decide)) (by decide)
  · intro route hroute
    refine hroute.mono fun a b s hfree => ?_
    cases s with
    | right => simpa [freeForPlayer, freeRoad] using hfree
    | up => simpa [freeForPlayer, freeRoad, BadRoad.At] using hfree

end LearnGit.Proofs.DynamicProgramming.AvoidRoads
