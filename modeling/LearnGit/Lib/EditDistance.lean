import Mathlib.Data.List.Count
import Mathlib.Order.Bounds.Basic
import Mathlib.Order.MinMax
import Mathlib.Tactic.Common

/-!
# `LearnGit.Lib.EditDistance`: the least number of edits

`Edit s t` says that one insertion, deletion or substitution makes `t` of `s`, and `Edits n s t`
that `n` of them do. `Distance s t n` says that `n` is the least number of edits.

Edits may come in any order and at any places. `Aligned n s t` reads the two lists from the left
instead, and keeps, substitutes, inserts or deletes one element at a time. An edit in front of an
alignment costs no more than one (`Edit.aligned`), so that no edits are less than an alignment, and
the distances obey the recurrences of the table (`Distance.concat_same`, `Distance.concat_ne`).
-/

set_option autoImplicit false

namespace LearnGit.Lib

variable {α : Type} {s t u : List α} {a b : α} {n m : Nat}

/-- An insertion, deletion or substitution of one element. -/
inductive Edit : List α → List α → Prop
  | insert (xs ys : List α) (a : α) : Edit (xs ++ ys) (xs ++ a :: ys)
  | delete (xs ys : List α) (a : α) : Edit (xs ++ a :: ys) (xs ++ ys)
  | substitute (xs ys : List α) (a b : α) : Edit (xs ++ a :: ys) (xs ++ b :: ys)

/-- This number of edits makes `t` of `s`. -/
inductive Edits : Nat → List α → List α → Prop
  | refl (s : List α) : Edits 0 s s
  | cons {n : Nat} {s t u : List α} (edit : Edit s t) (edits : Edits n t u) : Edits (n + 1) s u

/-- The least number of edits that make `t` of `s`. -/
def Distance (s t : List α) (n : Nat) : Prop := IsLeast {m | Edits m s t} n

/-! ### Edits -/

/-- An edit is taken back by an edit. -/
theorem Edit.symm (h : Edit s t) : Edit t s := by
  cases h with
  | insert xs ys a => exact .delete xs ys a
  | delete xs ys a => exact .insert xs ys a
  | substitute xs ys a b => exact .substitute xs ys b a

/-- An edit behind one more element. -/
theorem Edit.cons (c : α) (h : Edit s t) : Edit (c :: s) (c :: t) := by
  cases h with
  | insert xs ys a => exact .insert (c :: xs) ys a
  | delete xs ys a => exact .delete (c :: xs) ys a
  | substitute xs ys a b => exact .substitute (c :: xs) ys a b

/-- An edit of the reversed lists. -/
theorem Edit.reverse (h : Edit s t) : Edit s.reverse t.reverse := by
  cases h with
  | insert xs ys a => simpa using Edit.insert ys.reverse xs.reverse a
  | delete xs ys a => simpa using Edit.delete ys.reverse xs.reverse a
  | substitute xs ys a b => simpa using Edit.substitute ys.reverse xs.reverse a b

/-- An edit adds or takes away no more than one of the elements that are equal to `c`. -/
theorem Edit.count_le [DecidableEq α] (c : α) (h : Edit s t) : t.count c ≤ s.count c + 1 := by
  cases h with
  | insert xs ys a =>
    rw [List.count_append, List.count_append, List.count_cons]
    split <;> omega
  | delete xs ys a =>
    rw [List.count_append, List.count_append, List.count_cons]
    omega
  | substitute xs ys a b =>
    rw [List.count_append, List.count_append, List.count_cons, List.count_cons]
    split <;> split <;> omega

/-- Edits one after the other. -/
theorem Edits.trans (h : Edits n s t) (h' : Edits m t u) : Edits (n + m) s u := by
  induction h with
  | refl => rwa [Nat.zero_add]
  | cons edit _ ih =>
    rw [Nat.add_right_comm]
    exact .cons edit (ih h')

/-- Edits are taken back from the last one on. -/
theorem Edits.symm (h : Edits n s t) : Edits n t s := by
  induction h with
  | refl s => exact .refl s
  | cons edit _ ih => exact ih.trans (.cons edit.symm (.refl _))

/-- The edits behind one more element. -/
theorem Edits.map_cons (c : α) (h : Edits n s t) : Edits n (c :: s) (c :: t) := by
  induction h with
  | refl s => exact .refl (c :: s)
  | cons edit _ ih => exact .cons (edit.cons c) ih

/-- As many edits lead from one reversed list to the other. -/
theorem Edits.reverse (h : Edits n s t) : Edits n s.reverse t.reverse := by
  induction h with
  | refl s => exact .refl s.reverse
  | cons edit _ ih => exact .cons edit.reverse ih

/-- Without an edit a list stays as it is. -/
theorem edits_zero : Edits 0 s t ↔ s = t := by
  constructor
  · intro h
    cases h
    rfl
  · rintro rfl
    exact .refl s

/-- Every edit makes one more element equal to `c` at most. -/
theorem Edits.count_le [DecidableEq α] (c : α) (h : Edits n s t) :
    t.count c ≤ s.count c + n := by
  induction h with
  | refl => exact Nat.le_refl _
  | cons edit _ ih =>
    have hedit := edit.count_le c
    omega

/-! ### Alignments -/

/-- The edits of the two lists from the left to the right, and their number. -/
inductive Aligned : Nat → List α → List α → Prop
  | nil : Aligned 0 [] []
  | keep {n : Nat} {s t : List α} (a : α) (h : Aligned n s t) : Aligned n (a :: s) (a :: t)
  | substitute {n : Nat} {s t : List α} (a b : α) (h : Aligned n s t) :
    Aligned (n + 1) (a :: s) (b :: t)
  | insert {n : Nat} {s t : List α} (b : α) (h : Aligned n s t) : Aligned (n + 1) s (b :: t)
  | delete {n : Nat} {s t : List α} (a : α) (h : Aligned n s t) : Aligned (n + 1) (a :: s) t

/-- A list is aligned with itself by keeping all elements. -/
theorem Aligned.refl (s : List α) : Aligned 0 s s := by
  induction s with
  | nil => exact .nil
  | cons a s ih => exact .keep a ih

/-- Insertions and deletions change places. -/
theorem Aligned.symm (h : Aligned n s t) : Aligned n t s := by
  induction h with
  | nil => exact .nil
  | keep a _ ih => exact .keep a ih
  | substitute a b _ ih => exact .substitute b a ih
  | insert b _ ih => exact .delete b ih
  | delete a _ ih => exact .insert a ih

/-- An alignment is that number of edits. -/
theorem Aligned.edits (h : Aligned n s t) : Edits n s t := by
  induction h with
  | nil => exact .refl []
  | keep a _ ih => exact ih.map_cons a
  | @substitute n s t a b _ ih => exact .cons (.substitute [] s a b) (ih.map_cons b)
  | @insert n s t b _ ih => exact .cons (.insert [] s b) (ih.map_cons b)
  | @delete n s t a _ ih => exact .cons (.delete [] s a) ih

/-- Only a deletion ends at the empty list. -/
theorem Edit.of_nil (h : Edit s []) : ∃ a, s = [a] := by
  generalize hu : ([] : List α) = u at h
  cases h with
  | insert xs ys a => simp at hu
  | delete xs ys a =>
    obtain ⟨rfl, rfl⟩ := List.append_eq_nil_iff.mp hu.symm
    exact ⟨a, rfl⟩
  | substitute xs ys a b => simp at hu

/-- What an edit can do to make `b :: t`: it is at the head, or behind it. -/
theorem Edit.of_cons (h : Edit s (b :: t)) :
    s = t ∨ (∃ a, s = a :: b :: t) ∨ (∃ a, s = a :: t) ∨ ∃ s', s = b :: s' ∧ Edit s' t := by
  generalize hu : b :: t = u at h
  cases h with
  | insert xs ys a =>
    cases xs with
    | nil =>
      obtain ⟨rfl, rfl⟩ := List.cons.inj hu
      exact .inl rfl
    | cons x xs =>
      obtain ⟨rfl, rfl⟩ := List.cons.inj hu
      exact .inr (.inr (.inr ⟨_, rfl, .insert xs ys a⟩))
  | delete xs ys a =>
    cases xs with
    | nil =>
      obtain rfl : b :: t = ys := hu
      exact .inr (.inl ⟨a, rfl⟩)
    | cons x xs =>
      obtain ⟨rfl, rfl⟩ := List.cons.inj hu
      exact .inr (.inr (.inr ⟨_, rfl, .delete xs ys a⟩))
  | substitute xs ys a c =>
    cases xs with
    | nil =>
      obtain ⟨rfl, rfl⟩ := List.cons.inj hu
      exact .inr (.inr (.inl ⟨a, rfl⟩))
    | cons x xs =>
      obtain ⟨rfl, rfl⟩ := List.cons.inj hu
      exact .inr (.inr (.inr ⟨_, rfl, .substitute xs ys a c⟩))

/-- An edit in front of an alignment is one more at most. -/
theorem Edit.aligned (h : Aligned n t u) (hedit : Edit s t) : ∃ m ≤ n + 1, Aligned m s u := by
  induction h generalizing s with
  | nil =>
    obtain ⟨a, rfl⟩ := hedit.of_nil
    exact ⟨1, Nat.le_refl _, .delete a .nil⟩
  -- The edit may insert the first element, stand before it, replace it, or be behind it.
  | @keep n t u b h ih =>
    rcases hedit.of_cons with rfl | ⟨a, rfl⟩ | ⟨a, rfl⟩ | ⟨s', rfl, hedit'⟩
    · exact ⟨n + 1, Nat.le_refl _, .insert b h⟩
    · exact ⟨n + 1, Nat.le_refl _, .delete a (.keep b h)⟩
    · exact ⟨n + 1, Nat.le_refl _, .substitute a b h⟩
    · obtain ⟨m, hm, h'⟩ := ih hedit'
      exact ⟨m, hm, .keep b h'⟩
  | @substitute n t u b c h ih =>
    rcases hedit.of_cons with rfl | ⟨a, rfl⟩ | ⟨a, rfl⟩ | ⟨s', rfl, hedit'⟩
    · exact ⟨n + 1, Nat.le_succ _, .insert c h⟩
    · exact ⟨n + 2, Nat.le_refl _, .delete a (.substitute b c h)⟩
    · exact ⟨n + 1, Nat.le_succ _, .substitute a c h⟩
    · obtain ⟨m, hm, h'⟩ := ih hedit'
      exact ⟨m + 1, Nat.succ_le_succ hm, .substitute b c h'⟩
  | @insert n t u c h ih =>
    obtain ⟨m, hm, h'⟩ := ih hedit
    exact ⟨m + 1, Nat.succ_le_succ hm, .insert c h'⟩
  | @delete n t u b h ih =>
    rcases hedit.of_cons with rfl | ⟨a, rfl⟩ | ⟨a, rfl⟩ | ⟨s', rfl, hedit'⟩
    · exact ⟨n, by omega, h⟩
    · exact ⟨n + 2, Nat.le_refl _, .delete a (.delete b h)⟩
    · exact ⟨n + 1, Nat.le_succ _, .delete a h⟩
    · obtain ⟨m, hm, h'⟩ := ih hedit'
      exact ⟨m + 1, Nat.succ_le_succ hm, .delete b h'⟩

/-- Edits in any order come down to an alignment with no more of them. -/
theorem Edits.aligned (h : Edits n s t) : ∃ m ≤ n, Aligned m s t := by
  induction h with
  | refl s => exact ⟨0, Nat.le_refl 0, .refl s⟩
  | cons edit _ ih =>
    obtain ⟨m, hm, h'⟩ := ih
    obtain ⟨k, hk, h''⟩ := edit.aligned h'
    exact ⟨k, by omega, h''⟩

/-- Substitutions, and insertions or deletions for the rest of the longer list. -/
theorem exists_aligned_le (s t : List α) : ∃ n ≤ max s.length t.length, Aligned n s t := by
  induction s generalizing t with
  | nil =>
    induction t with
    | nil => exact ⟨0, Nat.le_refl 0, .nil⟩
    | cons b t ih =>
      obtain ⟨n, hn, h⟩ := ih
      refine ⟨n + 1, ?_, .insert b h⟩
      simp only [List.length_cons, List.length_nil] at hn ⊢
      omega
  | cons a s ih =>
    cases t with
    | nil =>
      obtain ⟨n, hn, h⟩ := ih []
      refine ⟨n + 1, ?_, .delete a h⟩
      simp only [List.length_cons, List.length_nil] at hn ⊢
      omega
    | cons b t =>
      obtain ⟨n, hn, h⟩ := ih t
      refine ⟨n + 1, ?_, .substitute a b h⟩
      simp only [List.length_cons]
      omega

/-! ### The distance -/

/-- The least alignment has the distance. -/
theorem distance_of_aligned (h : Aligned n s t) (hmin : ∀ m, Aligned m s t → n ≤ m) :
    Distance s t n := by
  refine ⟨h.edits, fun m hm => ?_⟩
  obtain ⟨k, hk, h'⟩ := Edits.aligned hm
  exact (hmin k h').trans hk

/-- The distance is reached by an alignment. -/
theorem Distance.aligned (h : Distance s t n) : Aligned n s t := by
  obtain ⟨m, hm, h'⟩ := Edits.aligned h.1
  obtain rfl : n = m := Nat.le_antisymm (h.2 h'.edits) hm
  exact h'

/-- No alignment has fewer edits than the distance. -/
theorem Distance.le (h : Distance s t n) (h' : Aligned m s t) : n ≤ m := h.2 h'.edits

/-- There is one distance. -/
theorem Distance.unique (h : Distance s t n) (h' : Distance s t m) : n = m := IsLeast.unique h h'

/-- The distance is the same in both directions. -/
theorem Distance.symm (h : Distance s t n) : Distance t s n :=
  ⟨Edits.symm h.1, fun _ hm => h.2 (Edits.symm hm)⟩

/-- The distance of the reversed lists. -/
theorem Distance.reverse (h : Distance s t n) : Distance s.reverse t.reverse n := by
  refine ⟨Edits.reverse h.1, fun m hm => h.2 ?_⟩
  have hback := Edits.reverse hm
  rwa [List.reverse_reverse, List.reverse_reverse] at hback

/-- The distance is 0 between equal lists only. -/
theorem distance_zero : Distance s t 0 ↔ s = t := by
  constructor
  · exact fun h => edits_zero.mp h.1
  · exact fun h => ⟨edits_zero.mpr h, fun m _ => Nat.zero_le m⟩

/-- The triangle inequality. -/
theorem Distance.triangle {k : Nat} (h : Distance s t n) (h' : Distance t u m)
    (h'' : Distance s u k) : k ≤ n + m := h''.2 (Edits.trans h.1 h'.1)

/-- The distance is no more than the greater length. -/
theorem Distance.le_max (h : Distance s t n) : n ≤ max s.length t.length := by
  obtain ⟨m, hm, h'⟩ := exists_aligned_le s t
  exact (h.le h').trans hm

/-! ### The recurrences -/

/-- All elements are inserted into the empty list. -/
theorem distance_nil (t : List α) : Distance [] t t.length := by
  refine distance_of_aligned ?_ fun m h => ?_
  · induction t with
    | nil => exact .nil
    | cons b t ih => exact .insert b ih
  · generalize hs : ([] : List α) = s at h
    induction h with
    | nil => exact Nat.le_refl 0
    | keep | substitute | delete => exact absurd hs (List.cons_ne_nil _ _).symm
    | insert b _ ih => exact Nat.succ_le_succ (ih hs)

/-- Equal elements at the head need no edit. -/
theorem Distance.cons_same (h : Distance s t n) (a : α) : Distance (a :: s) (a :: t) n := by
  refine distance_of_aligned (.keep a h.aligned) fun m h' => ?_
  cases h' with
  | keep _ h' => exact h.le h'
  | substitute _ _ h' => exact (h.le h').trans (Nat.le_succ _)
  -- An alignment that inserts one of the two elements is turned into one without it.
  | insert _ h' =>
    obtain ⟨k, hk, h''⟩ := Edit.aligned h' (.insert [] s a)
    exact (h.le h'').trans hk
  | delete _ h' =>
    obtain ⟨k, hk, h''⟩ := Edit.aligned h'.symm (.insert [] t a)
    exact (h.le h''.symm).trans hk

/-- Different elements at the head need one edit of the three kinds. -/
theorem Distance.cons_ne {x y z : Nat} (hab : a ≠ b) (hx : Distance s (b :: t) x)
    (hy : Distance (a :: s) t y) (hz : Distance s t z) :
    Distance (a :: s) (b :: t) (min (min x y) z + 1) := by
  refine distance_of_aligned ?_ fun m h' => ?_
  · rcases min_choice (min x y) z with hmin | hmin
    · rw [hmin]
      rcases min_choice x y with hmin' | hmin'
      · rw [hmin']
        exact .delete a hx.aligned
      · rw [hmin']
        exact .insert b hy.aligned
    · rw [hmin]
      exact .substitute a b hz.aligned
  · cases h' with
    | keep _ h' => exact absurd rfl hab
    | substitute _ _ h' =>
      have hle := hz.le h'
      omega
    | insert _ h' =>
      have hle := hy.le h'
      omega
    | delete _ h' =>
      have hle := hx.le h'
      omega

/-- Equal elements at the end need no edit. -/
theorem Distance.concat_same (h : Distance s t n) (a : α) :
    Distance (s ++ [a]) (t ++ [a]) n := by
  simpa using (h.reverse.cons_same a).reverse

/-- Different elements at the end need one edit of the three kinds. -/
theorem Distance.concat_ne {x y z : Nat} (hab : a ≠ b) (hx : Distance s (t ++ [b]) x)
    (hy : Distance (s ++ [a]) t y) (hz : Distance s t z) :
    Distance (s ++ [a]) (t ++ [b]) (min (min x y) z + 1) := by
  have hx' : Distance s.reverse (b :: t.reverse) x := by simpa using hx.reverse
  have hy' : Distance (a :: s.reverse) t.reverse y := by simpa using hy.reverse
  simpa using (Distance.cons_ne hab hx' hy' hz.reverse).reverse

end LearnGit.Lib
