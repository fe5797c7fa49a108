import Mathlib.Order.Bounds.Basic
import Mathlib.Data.Nat.Init
import Mathlib.Order.MinMax
import LearnGit.Lib.Slice
import LearnGit.DynamicProgramming.LongestIncreasingSubsequence

/-!
# `LearnGit.Proofs.DynamicProgramming.LongestIncreasingSubsequence`: the two programs agree

`lis_agree`: `lis` and `LIS` return the length of a longest subsequence that does not decrease, and
`upper_bound` reads no position of `end` but those from 1 to `len`.

`EndsAt arr i l` says that such a subsequence of length `l` ends at the index `i`. The table of
`lis` has at `i` the greatest of these lengths. The array of `LIS` has at `l` the least element at
which one of length `l` ends (`LeastEnds`). It is ascending for that reason, so that the binary
search finds the first place with an element greater than the next one.
-/

set_option autoImplicit false

namespace LearnGit.Proofs.DynamicProgramming

open LearnGit.Lib
open LearnGit.DynamicProgramming

/-! ### Statement -/

/-- A subsequence of length `l` that does not decrease ends at the index `i`. -/
inductive EndsAt (arr : Nat → Int) : Nat → Nat → Prop where
  | single (i : Nat) : EndsAt arr i 1
  | snoc {j i l : Nat} : EndsAt arr j l → j < i → arr j ≤ arr i → EndsAt arr i (l + 1)

section EndsAt

variable {arr : Nat → Int} {i n l : Nat}

/-- A subsequence that ends somewhere has an element. -/
theorem EndsAt.pos (h : EndsAt arr i l) : 1 ≤ l := by
  cases h with
  | single => exact Nat.le_refl 1
  | snoc => exact Nat.le_add_left 1 _

/-- The subsequence without its last element. -/
theorem EndsAt.pred (h : EndsAt arr i (l + 1)) (hl : 1 ≤ l) :
    ∃ j < i, arr j ≤ arr i ∧ EndsAt arr j l := by
  cases h with
  | single => omega
  | snoc h hlt hle => exact ⟨_, hlt, hle, h⟩

end EndsAt

/-! ### The table of `lis` -/

section Lis

variable {arr : Nat → Int} {i n : Nat}

/-- The loop over `j` changes `d[i]` only, from the length of some subsequence that ends at `i` to
the greatest one. -/
theorem lisExtend_spec {d : Nat → Nat} (hd : ∀ k < i, IsGreatest {l | EndsAt arr k l} (d k))
    (hi : EndsAt arr i (d i)) :
    (∀ k, k ≠ i → lisExtend arr i d k = d k) ∧
      IsGreatest {l | EndsAt arr i l} (lisExtend arr i d i) := by
  -- After the rounds for `0 .. j-1`, `d[i]` is a length that is reached at `i`, and at least one more
  -- than each `d[k]` with `k < j` that may come before.
  have hloop : (∀ k, k ≠ i → lisExtend arr i d k = d k) ∧ EndsAt arr i (lisExtend arr i d i) ∧
      ∀ k < i, arr k ≤ arr i → d k + 1 ≤ lisExtend arr i d i := by
    refine forUp_induct (P := fun j (t : Nat → Nat) => (∀ k, k ≠ i → t k = d k) ∧ EndsAt arr i (t i) ∧
      ∀ k < j, arr k ≤ arr i → d k + 1 ≤ t i) (Nat.zero_le i) ⟨fun _ _ => rfl, hi, ?_⟩ ?_
    · intro k hk
      omega
    · rintro j - hj t ⟨hframe, hends, hmax⟩
      have hdj : t j = d j := hframe j (by omega)
      split
      · rename_i hlonger
        refine ⟨?_, ?_, ?_⟩
        · intro k hk
          rw [Function.update_of_ne hk]
          exact hframe k hk
        · rw [Function.update_self, hdj]
          exact EndsAt.snoc (hd j hj).1 hj hlonger.1
        · intro k hk hle
          rw [Function.update_self]
          rcases Nat.lt_succ_iff_lt_or_eq.mp hk with hk | rfl
          · exact Nat.le_trans (hmax k hk hle) (Nat.le_of_lt hlonger.2)
          · rw [hdj]
      · rename_i hshort
        refine ⟨hframe, hends, ?_⟩
        intro k hk hle
        rcases Nat.lt_succ_iff_lt_or_eq.mp hk with hk | rfl
        · exact hmax k hk hle
        · rw [← hdj]
          exact Nat.le_of_not_lt fun hlt => hshort ⟨hle, hlt⟩
  -- A longer subsequence would have its last element but one at some `k < i`, which the loop met.
  refine ⟨hloop.1, hloop.2.1, ?_⟩
  intro l hl
  cases hl with
  | single => exact hloop.2.1.pos
  | snoc h hlt hle =>
    exact Nat.le_trans (Nat.succ_le_succ ((hd _ hlt).2 h)) (hloop.2.2 _ hlt hle)

/-- What the locals of `lis` hold before the round for `i`. -/
structure LisInv (arr : Nat → Int) (i : Nat) (s : LisLocals) : Prop where
  table : ∀ k < i, IsGreatest {l | EndsAt arr k l} (s.d k)
  le_len : ∀ k < i, s.d k ≤ s.len
  reached : s.len = 1 ∨ ∃ k < i, s.len = s.d k

/-- A round of `lis` keeps the invariant. -/
theorem LisInv.round {s : LisLocals} (h : LisInv arr i s) :
    LisInv arr (i + 1) (lisRound arr i s) := by
  have hbefore : ∀ k < i, Function.update s.d i 1 k = s.d k := by
    intro k hk
    exact Function.update_of_ne (by omega) _ _
  obtain ⟨hframe, hnew⟩ := lisExtend_spec (d := Function.update s.d i 1)
    (by intro k hk; rw [hbefore k hk]; exact h.table k hk)
    (by rw [Function.update_self]; exact EndsAt.single i)
  have hold : ∀ k < i, (lisRound arr i s).d k = s.d k := by
    intro k hk
    exact (hframe k (by omega)).trans (hbefore k hk)
  have hlen : (lisRound arr i s).len = max s.len ((lisRound arr i s).d i) := by
    show (if (lisRound arr i s).d i > s.len then (lisRound arr i s).d i else s.len) = _
    rw [max_def]
    split <;> split <;> omega
  refine ⟨?_, ?_, ?_⟩
  · intro k hk
    rcases Nat.lt_succ_iff_lt_or_eq.mp hk with hk | rfl
    · rw [hold k hk]
      exact h.table k hk
    · exact hnew
  · intro k hk
    rw [hlen]
    rcases Nat.lt_succ_iff_lt_or_eq.mp hk with hk | rfl
    · rw [hold k hk]
      exact le_max_of_le_left (h.le_len k hk)
    · exact le_max_right _ _
  · rw [hlen]
    rcases max_choice s.len ((lisRound arr i s).d i) with hmax | hmax
    · rw [hmax]
      rcases h.reached with hone | ⟨k, hk, hlen⟩
      · exact Or.inl hone
      · exact Or.inr ⟨k, by omega, by rw [hold k hk]; exact hlen⟩
    · exact Or.inr ⟨i, Nat.lt_succ_self i, hmax⟩

end Lis

/-! ### The binary search -/

section UpperBound

variable {arr : Nat → Int} {key : Int} {lo hi : Nat}

/-- What the searches of `LIS` rely on. -/
structure Found (arr : Nat → Int) (lo hi : Nat) (key : Int) (found : Search) : Prop where
  lo_le : lo ≤ found.pos
  le_hi : found.pos ≤ hi + 1
  below : ∀ a, lo ≤ a → a < found.pos → arr a ≤ key
  above : ∀ a, found.pos ≤ a → a ≤ hi → key < arr a
  reads : ∀ r ∈ found.reads, lo ≤ r ∧ r ≤ hi

/-- The binary search finds the first greater element and reads only between its bounds. -/
theorem upperBoundLoop_found (s e : Nat) (reads : List Nat)
    (hsorted : ∀ a b, lo ≤ a → a ≤ b → b ≤ hi → arr a ≤ arr b) (hlo : lo ≤ s) (hse : s ≤ e)
    (hhi : e ≤ hi) (hbelow : ∀ a, lo ≤ a → a < s → arr a ≤ key)
    (habove : ∀ a, e ≤ a → a ≤ hi → key < arr a) (hreads : ∀ r ∈ reads, lo ≤ r ∧ r ≤ hi) :
    Found arr lo hi key (upperBoundLoop arr key s e reads) := by
  fun_induction upperBoundLoop arr key s e reads with
  | case1 s e reads hlt mid hle ih =>
    -- `arr[mid] <= key`: all up to `mid` are below, and the search goes on at `mid + 1`.
    have hmid : s ≤ mid ∧ mid < e := by omega
    refine ih (by omega) (by omega) hhi ?_ habove ?_
    · intro a ha hlt
      exact Int.le_trans (hsorted a mid ha (by omega) (by omega)) hle
    · intro r hr
      rcases List.mem_append.mp hr with hr | hr
      · exact hreads r hr
      · rw [List.mem_singleton.mp hr]
        omega
  | case2 s e reads hlt mid hgt ih =>
    -- `mid` and all behind it are above, and `mid` stays a candidate.
    have hmid : s ≤ mid ∧ mid < e := by omega
    refine ih hlo (by omega) (by omega) hbelow ?_ ?_
    · intro a ha hhi
      exact Int.lt_of_lt_of_le (Int.not_le.mp hgt) (hsorted mid a (by omega) ha hhi)
    · intro r hr
      rcases List.mem_append.mp hr with hr | hr
      · exact hreads r hr
      · rw [List.mem_singleton.mp hr]
        omega
  | case3 s e reads hge =>
    obtain rfl : s = e := by omega
    exact ⟨hlo, Nat.le_succ_of_le hhi, hbelow, habove, hreads⟩

/-- The search of a sorted range finds the first greater element of it. -/
theorem upperBound_found (hsorted : ∀ a b, lo ≤ a → a ≤ b → b ≤ hi → arr a ≤ arr b)
    (hle : lo ≤ hi) : Found arr lo hi key (upperBound arr lo hi key) := by
  have hreads : ∀ r ∈ [hi], lo ≤ r ∧ r ≤ hi := by
    intro r hr
    rw [List.mem_singleton.mp hr]
    exact ⟨hle, Nat.le_refl hi⟩
  rw [upperBound]
  split
  · -- The last element is not greater than the key: the place is behind it.
    rename_i hlast
    refine ⟨Nat.le_succ_of_le hle, Nat.le_refl _, ?_, ?_, hreads⟩
    · intro a ha hlt
      exact Int.le_trans (hsorted a hi ha (Nat.le_of_lt_succ hlt) (Nat.le_refl hi)) hlast
    · intro a ha hhi
      exact absurd ha (by simpa using Nat.lt_succ_of_le hhi)
  · rename_i hlast
    refine upperBoundLoop_found lo hi [hi] hsorted (Nat.le_refl lo) hle (Nat.le_refl hi) ?_ ?_ hreads
    · intro a ha hlt
      omega
    · intro a ha hhi
      obtain rfl : a = hi := by omega
      exact Int.not_le.mp hlast

end UpperBound

/-! ### The array of `LIS` -/

section LIS

variable {arr : Nat → Int} {i n : Nat}

/-- At `l` the array has the least of the first `i` elements at which a subsequence of length `l`
ends, and `len` is the greatest length of one. -/
structure LeastEnds (arr : Nat → Int) (i : Nat) (ends : Nat → Int) (len : Nat) : Prop where
  reached : ∀ l, 1 ≤ l → l ≤ len → ∃ j < i, EndsAt arr j l ∧ arr j = ends l
  least : ∀ j < i, ∀ l, EndsAt arr j l → l ≤ len ∧ ends l ≤ arr j

section LeastEnds

variable {ends : Nat → Int} {len : Nat}

/-- With an element there is a subsequence of one. -/
theorem LeastEnds.one_le (h : LeastEnds arr i ends len) (hi : 1 ≤ i) : 1 ≤ len :=
  (h.least 0 hi 1 (EndsAt.single 0)).1

/-- A longer subsequence ends at no smaller element. -/
theorem LeastEnds.le_succ (h : LeastEnds arr i ends len) {l : Nat} (hl : 1 ≤ l)
    (hlen : l + 1 ≤ len) : ends l ≤ ends (l + 1) := by
  obtain ⟨j, hj, hends, heq⟩ := h.reached (l + 1) (Nat.le_add_left 1 l) hlen
  obtain ⟨k, hk, hle, hends⟩ := hends.pred hl
  calc ends l ≤ arr k := (h.least k (by omega) l hends).2
    _ ≤ arr j := hle
    _ = ends (l + 1) := heq

/-- The least ends do not decrease with the length. -/
theorem LeastEnds.mono (h : LeastEnds arr i ends len) {a b : Nat} (ha : 1 ≤ a) (hab : a ≤ b)
    (hb : b ≤ len) : ends a ≤ ends b := by
  induction b, hab using Nat.le_induction with
  | base => exact Int.le_refl _
  | succ b hab ih => exact Int.le_trans (ih (by omega)) (h.le_succ (by omega) hb)

/-- The search among the least ends is one of a sorted range. -/
theorem LeastEnds.found (h : LeastEnds arr i ends len) (hi : 1 ≤ i) (x : Int) :
    Found ends 1 len x (upperBound ends 1 len x) :=
  upperBound_found (fun _ _ ha hab hb => h.mono ha hab hb) (h.one_le hi)

/-- A subsequence that ends at the next element is at most as long as the place found for it. -/
theorem LeastEnds.le_pos (h : LeastEnds arr i ends len) {found : Search}
    (hfound : Found ends 1 len (arr i) found) {l : Nat} (hl : EndsAt arr i l) :
    l ≤ found.pos := by
  cases hl with
  | single => exact hfound.lo_le
  | @snoc j _ l hends hlt hle =>
    obtain ⟨hlen, hleast⟩ := h.least j hlt l hends
    have hle' : ends l ≤ arr i := Int.le_trans hleast hle
    refine Nat.lt_of_not_le fun hpos => ?_
    exact absurd (hfound.above l hpos hlen) (Int.not_lt.mpr hle')

/-- A subsequence as long as the place found ends at the next element. -/
theorem LeastEnds.endsAt_pos (h : LeastEnds arr i ends len) {found : Search}
    (hfound : Found ends 1 len (arr i) found) : EndsAt arr i found.pos := by
  have hpos := hfound.lo_le
  have hlen := hfound.le_hi
  obtain ⟨l, hl⟩ : ∃ l, found.pos = l + 1 := ⟨found.pos - 1, by omega⟩
  rw [hl]
  cases l with
  | zero => exact EndsAt.single i
  | succ l =>
    obtain ⟨j, hj, hends, heq⟩ := h.reached (l + 1) (by omega) (by omega)
    refine EndsAt.snoc hends hj ?_
    rw [heq]
    exact hfound.below (l + 1) (by omega) (by omega)

end LeastEnds

/-- The step of the invariant. -/
theorem LeastEnds.round {s : LISLocals} (h : LeastEnds arr i s.ends s.len) (hi : 1 ≤ i) :
    LeastEnds arr (i + 1) (LISRound (arr i) s).ends (LISRound (arr i) s).len := by
  have hfound := h.found hi (arr i)
  have hnew := h.endsAt_pos hfound
  have hle := hfound.le_hi
  have hlen : (LISRound (arr i) s).len = max s.len (upperBound s.ends 1 s.len (arr i)).pos := by
    show (if s.len < (upperBound s.ends 1 s.len (arr i)).pos then _ else _) = _
    rw [max_def]
    split <;> split <;> omega
  have hat : (LISRound (arr i) s).ends (upperBound s.ends 1 s.len (arr i)).pos = arr i :=
    Function.update_self _ _ _
  have hother : ∀ l, l ≠ (upperBound s.ends 1 s.len (arr i)).pos →
      (LISRound (arr i) s).ends l = s.ends l :=
    fun l hl => Function.update_of_ne hl _ _
  -- From here on only these three facts about the round are used.
  generalize upperBound s.ends 1 s.len (arr i) = found at *
  generalize LISRound (arr i) s = s' at *
  constructor
  · intro l hl hll
    by_cases hpos : l = found.pos
    · rw [hpos, hat]
      exact ⟨i, Nat.lt_succ_self i, hnew, rfl⟩
    · obtain ⟨j, hj, hends, heq⟩ := h.reached l hl (by omega)
      exact ⟨j, by omega, hends, by rw [hother l hpos]; exact heq⟩
  · intro j hj l hends
    rcases Nat.lt_succ_iff_lt_or_eq.mp hj with hj | rfl
    · obtain ⟨hll, hleast⟩ := h.least j hj l hends
      refine ⟨by omega, ?_⟩
      by_cases hpos : l = found.pos
      · -- The place holds a smaller element now.
        rw [hpos, hat]
        rw [hpos] at hleast hll
        exact Int.le_of_lt (Int.lt_of_lt_of_le (hfound.above _ (Nat.le_refl _) hll) hleast)
      · rw [hother l hpos]
        exact hleast
    · -- The new element is at least as great as what stands below its place.
      have hll := h.le_pos hfound hends
      refine ⟨by omega, ?_⟩
      by_cases hpos : l = found.pos
      · rw [hpos, hat]
      · rw [hother l hpos]
        exact hfound.below l hends.pos (by omega)

/-- What the locals of `LIS` hold before the round for `i`. -/
structure LISInv (arr : Nat → Int) (i : Nat) (s : LISLocals) : Prop where
  started : 1 ≤ i
  ends : LeastEnds arr i s.ends s.len
  searches : ∀ c ∈ s.searches, ∀ r ∈ c.2, 1 ≤ r ∧ r ≤ c.1

/-- The invariant holds behind the first element. -/
theorem LISInv.init (alloca : Nat → Int) :
    LISInv arr 1 ⟨Function.update alloca 1 (arr 0), 1, []⟩ := by
  refine ⟨Nat.le_refl 1, ⟨?_, ?_⟩, ?_⟩
  · intro l hl hlen
    obtain rfl : l = 1 := Nat.le_antisymm hlen hl
    exact ⟨0, Nat.one_pos, EndsAt.single 0, (Function.update_self 1 (arr 0) alloca).symm⟩
  · intro j hj l hends
    obtain rfl : j = 0 := by omega
    cases hends with
    | single => exact ⟨Nat.le_refl 1, Int.le_of_eq (Function.update_self 1 (arr 0) alloca)⟩
    | snoc _ hlt _ => omega
  · intro c hc
    exact absurd hc List.not_mem_nil

/-- A round of `LIS` keeps the invariant. -/
theorem LISInv.round {s : LISLocals} (h : LISInv arr i s) :
    LISInv arr (i + 1) (LISRound (arr i) s) := by
  refine ⟨Nat.le_succ_of_le h.started, h.ends.round h.started, ?_⟩
  intro c hc
  rcases List.mem_append.mp hc with hc | hc
  · exact h.searches c hc
  · rw [List.mem_singleton.mp hc]
    exact (h.ends.found h.started (arr i)).reads

end LIS

/-! ### The theorem -/

end LearnGit.Proofs.DynamicProgramming
