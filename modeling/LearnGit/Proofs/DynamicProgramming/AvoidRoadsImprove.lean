import LearnGit.Proofs.DynamicProgramming.AvoidRoads

/-!
# `LearnGit.Proofs.DynamicProgramming.AvoidRoadsImprove`: the ways around the bad segments

`numWaysImprove_counts`: `AvoidRoads_improve.cpp` returns the number of shortest paths that use none
of the bad segments, for every grid and all segments, on the grid or not.

The program looks for the text of a road in both orders of its end points, and a segment is that
road if its text is one of the two (`BadRoad.at_iff`). A segment is a road of the rectangle that it
needs.
-/

set_option autoImplicit false

namespace LearnGit.Proofs.DynamicProgramming.AvoidRoads

open LearnGit.Lib
open LearnGit.DynamicProgramming.AvoidRoads

/-- A unit segment that begins at `(x, y)`. `reversed` says that its text names the end further from
the origin first. -/
structure UnitSegment where
  x : Nat
  y : Nat
  step : Step
  reversed : Bool

namespace UnitSegment

/-- The segment as a road. -/
def road (r : UnitSegment) : BadRoad (r.x + r.step.dx) (r.y + r.step.dy) :=
  ⟨r.x, r.y, r.step, r.reversed, Nat.le_refl _, Nat.le_refl _⟩

/-- The four numbers of its end points. -/
def text (r : UnitSegment) : Text := r.road.text

/-- No segment is the one that begins at `(x, y)` with the step `s`. -/
def avoided (bad : List UnitSegment) (x y : Nat) (s : Step) : Bool :=
  bad.all fun r => ¬(r.x = x ∧ r.y = y ∧ r.step = s)

/-- A road is free where no segment is written for it. -/
theorem freeText_texts (bad : List UnitSegment) : freeText (bad.map text) = avoided bad := by
  funext x y s
  rw [Bool.eq_iff_iff, freeText, beq_iff_eq, badIndex_eq_length, avoided, List.all_eq_true,
    List.forall_mem_map]
  refine forall₂_congr fun r _ => ?_
  have hat : (r.x = x ∧ r.y = y ∧ r.step = s) ↔ _ := r.road.at_iff x y s
  rw [decide_eq_true_iff, hat, not_or]
  rfl

end UnitSegment

/-- The result is the number of shortest paths from the origin to `(width, height)` along segments
that are not bad. -/
theorem numWaysImprove_counts (width height : Nat) (bad : List UnitSegment) :
    numWaysImprove width height (bad.map UnitSegment.text)
      = some ((routes (UnitSegment.avoided bad) width height).ncard : Int) := by
  rw [numWaysImprove_texts, UnitSegment.freeText_texts, (ncard_routes _ width height).2]

/-- The segments of `main`, the second one written from its far end. -/
example : [(⟨0, 0, .up, false⟩ : UnitSegment), ⟨5, 6, .right, true⟩].map UnitSegment.text
    = [segmentText 0 0 0 1, segmentText 6 6 5 6] := rfl

end LearnGit.Proofs.DynamicProgramming.AvoidRoads
