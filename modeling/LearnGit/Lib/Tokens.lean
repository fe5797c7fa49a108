import Mathlib

/-!
# `LearnGit.Lib.Tokens`: the runs of a list between its separators

`runs p l` lists the maximal runs of elements of `l` that are not separators, where `p` says what
a separator is. `runs_append_cons` splits the runs at a separator, and `runs_eq_singleton` has the
run without one. What else is stated follows from these two: the runs behind separators in front
(`runs_of_dropWhile_nil`, `runs_of_dropWhile_cons`), and, by the induction rule
`separator_induct`, the runs of the reversed list (`runs_reverse`), how many there are at most
(`runs_length_le`, `runs_length_le_countP`) and where the run of an element stands
(`index_le_of_mem_runs`).

`strip p l` is `l` without the elements of `p` at its ends (`strip_of_trimmed`).
-/

set_option autoImplicit false

namespace LearnGit.Lib

variable {α : Type} {p : α → Bool}

/-- The maximal runs of elements that are not separators, in their order. -/
def runs (p : α → Bool) (l : List α) : List (List α) := (l.splitOnP p).filter (!·.isEmpty)

/-- The runs split at a separator. -/
theorem runs_append_cons (x y : List α) {c : α} (hc : p c = true) :
    runs p (x ++ c :: y) = runs p x ++ runs p y := by
  rw [runs, List.splitOnP_append_cons x y hc, List.filter_append]
  rfl

/-- The empty list has no tokens. -/
theorem runs_nil : runs p [] = [] := by
  rw [runs, List.splitOnP_nil]
  rfl

/-- A list without separators is one run. -/
theorem runs_eq_singleton {l : List α} (h : ∀ c ∈ l, p c = false) (hne : l ≠ []) :
    runs p l = [l] := by
  rw [runs, List.splitOnP_eq_singleton h, List.filter_cons_of_pos (by simpa using hne),
    List.filter_nil]

/-- A separator in front belongs to no token. -/
theorem runs_cons_of_pos {c : α} (hc : p c = true) (l : List α) : runs p (c :: l) = runs p l := by
  have h := runs_append_cons [] l hc
  rwa [List.nil_append, runs_nil, List.nil_append] at h

/-- `dropWhile` stops at an element that is none. -/
theorem eq_false_of_dropWhile_cons {l m : List α} {c : α} (h : l.dropWhile p = c :: m) :
    p c = false := by
  have hne : l.dropWhile p ≠ [] := by
    rw [h]
    exact List.cons_ne_nil c m
  have hhead := List.head_dropWhile_not p hne
  simpa only [h, List.head_cons] using hhead

/-- Separators in front belong to no run. -/
theorem runs_dropWhile (l : List α) : runs p (l.dropWhile p) = runs p l := by
  induction l with
  | nil => rfl
  | cons c l ih =>
    by_cases hc : p c = true
    · rw [List.dropWhile_cons_of_pos hc, ih, runs_cons_of_pos hc]
    · rw [List.dropWhile_cons_of_neg hc]

/-- A list of separators has no tokens. -/
theorem runs_of_dropWhile_nil {l : List α} (h : l.dropWhile p = []) : runs p l = [] := by
  rw [← runs_dropWhile, h, runs_nil]

/-- No separator is in the token at the front. -/
theorem mem_takeWhile_not {l : List α} {c : α} (h : c ∈ l.takeWhile (!p ·)) : p c = false := by
  simpa using List.mem_takeWhile_imp h

/-- The first run, and the runs behind the separator that ends it. -/
theorem runs_of_dropWhile_cons {l m : List α} {c : α} (h : l.dropWhile p = c :: m) :
    runs p l = (c :: m).takeWhile (!p ·) :: runs p ((c :: m).dropWhile (!p ·)).tail := by
  have hc : p c = false := eq_false_of_dropWhile_cons h
  have hne : (c :: m).takeWhile (!p ·) ≠ [] := by
    rw [List.takeWhile_cons_of_pos (by simp [hc])]
    exact List.cons_ne_nil _ _
  have hall : ∀ x ∈ (c :: m).takeWhile (!p ·), p x = false := fun x hx => mem_takeWhile_not hx
  have hsplit := List.takeWhile_append_dropWhile (p := (!p ·)) (l := c :: m)
  rw [← runs_dropWhile, h]
  cases hrest : (c :: m).dropWhile (!p ·) with
  | nil =>
    rw [hrest, List.append_nil] at hsplit
    rw [List.tail_nil, runs_nil]
    conv_lhs => rw [← hsplit]
    exact runs_eq_singleton hall hne
  | cons d rest =>
    have hd : p d = true := by simpa using eq_false_of_dropWhile_cons hrest
    rw [hrest] at hsplit
    rw [List.tail_cons]
    conv_lhs => rw [← hsplit]
    rw [runs_append_cons _ _ hd, runs_eq_singleton hall hne, List.singleton_append]

/-- The induction rule: a list has no separators, or a separator cuts it into two lists. -/
theorem separator_induct (p : α → Bool) {P : List α → Prop}
    (hfree : ∀ l, (∀ c ∈ l, p c = false) → P l)
    (hcut : ∀ x c y, p c = true → P x → P y → P (x ++ c :: y)) (l : List α) : P l := by
  induction hn : l.length using Nat.strongRecOn generalizing l with
  | ind n ih =>
    by_cases hsep : ∃ c ∈ l, p c = true
    · obtain ⟨c, hmem, hc⟩ := hsep
      obtain ⟨x, y, rfl⟩ := List.append_of_mem hmem
      rw [List.length_append, List.length_cons] at hn
      exact hcut x c y hc (ih x.length (by omega) x rfl) (ih y.length (by omega) y rfl)
    · refine hfree l fun c hc => ?_
      simpa using fun htrue => hsep ⟨c, hc, htrue⟩

/-- The runs of the reversed list are the reversed runs, from the last to the first. -/
theorem runs_reverse (l : List α) : runs p l.reverse = ((runs p l).map List.reverse).reverse := by
  induction l using separator_induct p with
  | hfree l hall =>
    by_cases hne : l = []
    · rw [hne, List.reverse_nil, runs_nil]
      rfl
    · rw [runs_eq_singleton hall hne, runs_eq_singleton (by simpa using hall) (by simpa using hne)]
      rfl
  | hcut x c y hc hx hy =>
    rw [List.reverse_append, List.reverse_cons, List.append_assoc, List.singleton_append,
      runs_append_cons _ _ hc, hx, hy, runs_append_cons _ _ hc, List.map_append,
      List.reverse_append]

/-- A run is a part of the list. -/
theorem sublist_of_mem_runs {l run : List α} (h : run ∈ runs p l) : run.Sublist l := by
  induction l using separator_induct p with
  | hfree l hall =>
    by_cases hne : l = []
    · rw [hne, runs_nil] at h
      exact absurd h List.not_mem_nil
    · rw [runs_eq_singleton hall hne, List.mem_singleton] at h
      rw [h]
  | hcut x c y hc hx hy =>
    rw [runs_append_cons _ _ hc, List.mem_append] at h
    rcases h with h | h
    · exact (hx h).trans (List.sublist_append_left _ _)
    · exact ((hy h).trans (List.sublist_cons_self _ _)).trans (List.sublist_append_right _ _)

/-- A run is no longer than the list. -/
theorem length_le_of_mem_runs {l run : List α} (h : run ∈ runs p l) : run.length ≤ l.length :=
  (sublist_of_mem_runs h).length_le

/-- Two runs need a separator between them. -/
theorem runs_length_le (p : α → Bool) (l : List α) : 2 * (runs p l).length ≤ l.length + 1 := by
  induction l using separator_induct p with
  | hfree l hall =>
    by_cases hne : l = []
    · rw [hne, runs_nil]
      exact Nat.zero_le _
    · have hpos := List.length_pos_iff.mpr hne
      rw [runs_eq_singleton hall hne, List.length_singleton]
      omega
  | hcut x c y hc hx hy =>
    rw [runs_append_cons _ _ hc, List.length_append, List.length_append, List.length_cons]
    omega

/-- Every run has an element of its own. -/
theorem runs_length_le_countP (p : α → Bool) (l : List α) :
    (runs p l).length ≤ l.countP (!p ·) := by
  induction l using separator_induct p with
  | hfree l hall =>
    by_cases hne : l = []
    · rw [hne, runs_nil]
      exact Nat.zero_le _
    · have hpos := List.length_pos_iff.mpr hne
      have hcount : l.countP (!p ·) = l.length :=
        List.countP_eq_length.mpr fun c hc => by simp [hall c hc]
      rw [runs_eq_singleton hall hne, List.length_singleton]
      omega
  | hcut x c y hc hx hy =>
    rw [runs_append_cons _ _ hc, List.length_append, List.countP_append, List.countP_cons]
    omega

/-- The runs of a list that begins with elements that are not separators. -/
theorem runs_append_of_free {x : List α} (y : List α) (hx : ∀ c ∈ x, p c = false) (hne : x ≠ []) :
    runs p (x ++ y) = (x ++ y.takeWhile (!p ·)) :: runs p (y.dropWhile (!p ·)).tail := by
  have hfront : ∀ c ∈ x, (!p c) = true := fun c hc => by rw [hx c hc, Bool.not_false]
  cases x with
  | nil => exact absurd rfl hne
  | cons c x =>
    have hc : ¬p c = true := by simp [hx c List.mem_cons_self]
    have hdrop : (c :: (x ++ y)).dropWhile p = c :: (x ++ y) := List.dropWhile_cons_of_neg hc
    rw [List.cons_append, runs_of_dropWhile_cons hdrop, ← List.cons_append,
      List.takeWhile_append_of_pos hfront, List.dropWhile_append_of_pos hfront]

/-- A run that has the element behind `x` comes after at most the runs of `x`. -/
theorem index_le_of_mem_runs {x y run : List α} {b : α} {i : Nat} (hb : p b = false) (hy : b ∉ y)
    (hrun : (runs p (x ++ b :: y))[i]? = some run) (hmem : b ∈ run) : i ≤ (runs p x).length := by
  induction x using separator_induct p generalizing i with
  | hfree x hall =>
    cases i with
    | zero => exact Nat.zero_le _
    | succ i =>
      -- The first run has it, and the others are parts of `y`.
      have hfront : ∀ c ∈ x ++ [b], p c = false := by
        intro c hc
        rcases List.mem_append.mp hc with hc | hc
        · exact hall c hc
        · rw [List.mem_singleton.mp hc, hb]
      rw [List.append_cons, runs_append_of_free y hfront (List.concat_ne_nil b x),
        List.getElem?_cons_succ] at hrun
      have hsub := sublist_of_mem_runs (List.mem_of_getElem? hrun)
      have htail := (List.tail_sublist (y.dropWhile (!p ·))).trans (List.dropWhile_sublist _)
      exact absurd ((hsub.trans htail).subset hmem) hy
  | hcut x c x' hc _ hx' =>
    rw [List.append_assoc, List.cons_append, runs_append_cons _ _ hc] at hrun
    rw [runs_append_cons _ _ hc, List.length_append]
    by_cases hi : i < (runs p x).length
    · omega
    · rw [List.getElem?_append_right (by omega)] at hrun
      have := hx' hrun
      omega

/-! ### Blanks at the ends -/

/-- A list without the elements of `p` at its two ends. -/
def strip (p : α → Bool) (l : List α) : List α := (l.dropWhile p).rdropWhile p

/-- A list that neither begins nor ends with an element of `p`. -/
structure Trimmed (p : α → Bool) (l : List α) : Prop where
  first : ∀ c, l.head? = some c → p c = false
  last : ∀ c, l.getLast? = some c → p c = false

/-- The empty list has no ends to be trimmed. -/
theorem Trimmed.nil : Trimmed p ([] : List α) :=
  ⟨fun _ h => absurd h (Option.some_ne_none _).symm, fun _ h => absurd h (Option.some_ne_none _).symm⟩

/-- Separators behind the list are dropped. -/
theorem rdropWhile_append_of_all {l w : List α} (h : ∀ c ∈ w, p c = true) :
    (l ++ w).rdropWhile p = l.rdropWhile p := by
  induction w using List.reverseRecOn with
  | nil => rw [List.append_nil]
  | append_singleton w c ih =>
    rw [← List.append_assoc, List.rdropWhile_concat_pos _ _ _ (h c (by simp))]
    exact ih fun d hd => h d (by simp [hd])

/-- Elements of `p` at the end do not matter. -/
theorem strip_append {l w : List α} (h : ∀ c ∈ w, p c = true) : strip p (l ++ w) = strip p l := by
  rw [strip, strip]
  by_cases hall : ∀ c ∈ l, p c = true
  · have hnil : l.dropWhile p = [] := List.dropWhile_eq_nil_iff.mpr hall
    have hnil' : (l ++ w).dropWhile p = [] := by
      refine List.dropWhile_eq_nil_iff.mpr fun c hc => ?_
      exact (List.mem_append.mp hc).elim (hall c) (h c)
    rw [hnil, hnil']
  · have hne : ¬(l.dropWhile p).isEmpty = true := by simpa using hall
    rw [List.dropWhile_append, if_neg hne]
    exact rdropWhile_append_of_all h

/-- `strip` finds what stands between elements of `p`. -/
theorem strip_of_trimmed {indent body w : List α} (hindent : ∀ c ∈ indent, p c = true)
    (hbody : Trimmed p body) (hw : ∀ c ∈ w, p c = true) : strip p (indent ++ body ++ w) = body := by
  rw [strip_append hw, strip, List.dropWhile_append_of_pos hindent]
  cases body with
  | nil => rfl
  | cons c body =>
    have hc : ¬p c = true := by simpa using hbody.first c rfl
    rw [List.dropWhile_cons_of_neg hc, List.rdropWhile_eq_self_iff]
    intro hne hlast
    have hfalse := hbody.last _ (List.getLast?_eq_getLast_of_ne_nil hne)
    rw [hlast] at hfalse
    exact Bool.noConfusion hfalse

/-- A last element that is none of `p` stays. -/
theorem getLast?_strip {l : List α} {c : α} (h : l.getLast? = some c) (hc : p c = false) :
    (strip p l).getLast? = some c := by
  obtain ⟨front, rfl⟩ := List.getLast?_eq_some_iff.mp h
  have hneg : ¬p c = true := by simpa using hc
  have hdrop : ∃ front', (front ++ [c]).dropWhile p = front' ++ [c] := by
    rw [List.dropWhile_append]
    split
    · exact ⟨[], List.dropWhile_cons_of_neg hneg⟩
    · exact ⟨front.dropWhile p, rfl⟩
  obtain ⟨front', hfront'⟩ := hdrop
  rw [strip, hfront', List.rdropWhile_concat_neg _ _ _ hneg, List.getLast?_concat]

end LearnGit.Lib
