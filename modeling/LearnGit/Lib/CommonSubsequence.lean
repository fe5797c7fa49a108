import Mathlib.Data.List.Basic
import Mathlib.Order.Bounds.Basic
import Mathlib.Order.MinMax

/-!
# `LearnGit.Lib.CommonSubsequence`: the lengths of the common subsequences

`commonLengths s t` are the lengths of the lists that are subsequences of both. The greatest of them
obeys the recurrences of the table (`commonLengths_concat_same`, `commonLengths_concat_ne`).
-/

set_option autoImplicit false

namespace LearnGit.Lib

variable {α : Type} {s t s' t' : List α} {a b : α} {n m : Nat}

/-- The lengths of the common subsequences. -/
def commonLengths (s t : List α) : Set Nat :=
  {n | ∃ u : List α, u.Sublist s ∧ u.Sublist t ∧ u.length = n}

/-- Longer lists have more common subsequences. -/
theorem commonLengths_mono (hs : s.Sublist s') (ht : t.Sublist t') :
    commonLengths s t ⊆ commonLengths s' t' := by
  rintro n ⟨u, hus, hut, rfl⟩
  exact ⟨u, hus.trans hs, hut.trans ht, rfl⟩

/-- The two lists may change places. -/
theorem commonLengths_comm (s t : List α) : commonLengths s t = commonLengths t s := by
  ext n
  constructor
  · exact fun ⟨u, hs, ht, hu⟩ => ⟨u, ht, hs, hu⟩
  · exact fun ⟨u, ht, hs, hu⟩ => ⟨u, hs, ht, hu⟩

/-- A common subsequence of the reversed lists is a reversed one. -/
theorem commonLengths_reverse (s t : List α) :
    commonLengths s.reverse t.reverse = commonLengths s t := by
  ext n
  constructor
  · rintro ⟨u, hs, ht, rfl⟩
    exact ⟨u.reverse, List.reverse_sublist.mp (by rwa [List.reverse_reverse]),
      List.reverse_sublist.mp (by rwa [List.reverse_reverse]), List.length_reverse⟩
  · rintro ⟨u, hs, ht, rfl⟩
    exact ⟨u.reverse, hs.reverse, ht.reverse, List.length_reverse⟩

/-- The empty list has the empty subsequence only. -/
theorem commonLengths_nil_left (t : List α) : IsGreatest (commonLengths [] t) 0 := by
  refine ⟨⟨[], List.Sublist.refl [], List.nil_sublist t, rfl⟩, ?_⟩
  rintro n ⟨u, hs, -, rfl⟩
  exact hs.length_le

/-- The empty list has the empty subsequence only. -/
theorem commonLengths_nil_right (s : List α) : IsGreatest (commonLengths s []) 0 := by
  rw [commonLengths_comm]
  exact commonLengths_nil_left s

/-- Equal elements at the head make the longest common subsequence longer by one. -/
theorem commonLengths_cons_same (h : IsGreatest (commonLengths s t) n) (a : α) :
    IsGreatest (commonLengths (a :: s) (a :: t)) (n + 1) := by
  obtain ⟨⟨u, hs, ht, rfl⟩, hmax⟩ := h
  refine ⟨⟨a :: u, hs.cons_cons a, ht.cons_cons a, rfl⟩, ?_⟩
  rintro m ⟨v, hvs, hvt, rfl⟩
  -- Without its first element, it is common to the two tails.
  cases v with
  | nil => exact Nat.zero_le _
  | cons b v => exact Nat.succ_le_succ (hmax ⟨v, hvs.tail, hvt.tail, rfl⟩)

/-- Of two different elements at the heads, one is not used. -/
theorem commonLengths_cons_ne (hab : a ≠ b) (hm : IsGreatest (commonLengths s (b :: t)) m)
    (hn : IsGreatest (commonLengths (a :: s) t) n) :
    IsGreatest (commonLengths (a :: s) (b :: t)) (max m n) := by
  constructor
  · rcases max_choice m n with hmax | hmax
    · rw [hmax]
      exact commonLengths_mono (List.sublist_cons_self a s) (List.Sublist.refl _) hm.1
    · rw [hmax]
      exact commonLengths_mono (List.Sublist.refl _) (List.sublist_cons_self b t) hn.1
  · rintro k ⟨u, hs, ht, rfl⟩
    rcases List.sublist_cons_iff.mp hs with hs' | ⟨r, rfl, -⟩
    · exact (hm.2 ⟨u, hs', ht, rfl⟩).trans (le_max_left m n)
    · rcases List.sublist_cons_iff.mp ht with ht' | ⟨r', heq, -⟩
      · exact (hn.2 ⟨_, hs, ht', rfl⟩).trans (le_max_right m n)
      · exact absurd (List.cons.inj heq).1 hab

/-- Equal elements at the end belong to the longest common subsequence. -/
theorem commonLengths_concat_same (h : IsGreatest (commonLengths s t) n) (a : α) :
    IsGreatest (commonLengths (s ++ [a]) (t ++ [a])) (n + 1) := by
  rw [← commonLengths_reverse] at h ⊢
  simpa using commonLengths_cons_same h a

/-- Of different elements at the end one is left out. -/
theorem commonLengths_concat_ne (hab : a ≠ b)
    (hm : IsGreatest (commonLengths s (t ++ [b])) m)
    (hn : IsGreatest (commonLengths (s ++ [a]) t) n) :
    IsGreatest (commonLengths (s ++ [a]) (t ++ [b])) (max m n) := by
  rw [← commonLengths_reverse] at hm hn ⊢
  simp only [List.reverse_append, List.reverse_singleton, List.singleton_append] at hm hn ⊢
  exact commonLengths_cons_ne hab hm hn

end LearnGit.Lib
