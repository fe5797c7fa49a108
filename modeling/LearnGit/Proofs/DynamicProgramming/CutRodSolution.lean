import LearnGit.DynamicProgramming.CutRodSolution
import LearnGit.Lib.Parts

/-!
# `LearnGit.Proofs.DynamicProgramming.CutRodSolution`: the pieces that are printed

The greatest price grows by 30 with every ten units, and what is left of them is worth the price in
`base` (`best_greatest`).

* `memoized_right_iff`: the memoized program is right as long as the price is an `int`.
* `bottomUp_right_iff`: the two bottom-up programs read the price of a piece of 11 and are undefined
  from that length on.

The run of the memoized program is described by its table: an entry is 0, or it is the greatest
price, with a first piece of it (`Entry`). A call for the length that is just being computed finds
the price of a first piece of 1, or a higher one, and so returns at once.
-/

set_option autoImplicit false

namespace LearnGit.Proofs.DynamicProgramming.CutRodSolution

open LearnGit.Lib
open LearnGit.DynamicProgramming.CutRodSolution

/-! ### The greatest price -/

/-- The price of a piece. -/
def priceOf (p : Nat) : Int := price.getD p 0

/-- A piece that has a price. -/
def Priced (p : Nat) : Prop := 1 ≤ p ∧ p ≤ 10

/-- The greatest price of a rod of less than ten units. -/
def base (r : Nat) : Int := [0, 1, 5, 8, 10, 13, 17, 18, 22, 25].getD r 0

/-- The greatest price. -/
def best (n : Nat) : Int := byPeriod 10 30 base n

/-- No rod is worth nothing. -/
theorem best_zero : best 0 = 0 := by decide

/-- A first piece and the best rest are worth no more than the best. -/
theorem best_step {p : Nat} (hp : Priced p) (n : Nat) : priceOf p + best n ≤ best (p + n) :=
  byPeriod_step (by decide) (by decide) hp n

/-- The best price has a first piece. -/
theorem best_reach {n : Nat} (hn : 0 < n) :
    ∃ p, Priced p ∧ 0 < p ∧ p ≤ n ∧ best n = priceOf p + best (n - p) :=
  byPeriod_reach (by decide) (by decide) (by decide) (by decide) hn

/-- `best` is the greatest price of all ways to cut the rod. -/
theorem best_greatest (n : Nat) : IsGreatest (totals Priced priceOf n) (best n) :=
  isGreatest_totals best_zero (fun _ n hp => best_step hp n) (fun _ hn => best_reach hn) n

/-- Two rods are worth no more than one of both lengths. -/
theorem best_add (i j : Nat) : best i + best j ≤ best (i + j) :=
  add_le_of_isGreatest (best_greatest i) (best_greatest j) (best_greatest (i + j))

/-- Every piece is worth something. -/
theorem priceOf_pos {p : Nat} (hp : Priced p) : 0 < priceOf p := by
  have htable : ∀ p, p ≤ 10 → 1 ≤ p → 0 < priceOf p := by decide
  exact htable p hp.2 hp.1

/-- No rod has a negative price. -/
theorem best_nonneg (n : Nat) : 0 ≤ best n := by
  obtain ⟨l, hl, hsum⟩ := (best_greatest n).1
  rw [← hsum]
  refine List.sum_nonneg fun x hx => ?_
  obtain ⟨p, hp, rfl⟩ := List.mem_map.mp hx
  exact (priceOf_pos (hl.1 p hp)).le

/-- Every rod is worth something. -/
theorem best_pos {n : Nat} (hn : 0 < n) : 0 < best n := by
  obtain ⟨p, hp, -, -, heq⟩ := best_reach hn
  have hpos := priceOf_pos hp
  have hrest := best_nonneg (n - p)
  omega

/-- A longer rod is worth no less. -/
theorem best_mono {k n : Nat} (h : k ≤ n) : best k ≤ best n := by
  have hadd := best_add k (n - k)
  have hrest := best_nonneg (n - k)
  rw [Nat.add_sub_of_le h] at hadd
  omega

/-- The longest rod whose price is an `int`. -/
def MAX_LENGTH : Nat := 715827882

/-- The greatest price is an `int` up to `MAX_LENGTH`. -/
theorem best_range_iff (n : Nat) : Int32Range (best n) ↔ n ≤ MAX_LENGTH := by
  constructor
  · intro hrange
    by_contra hlong
    have hover : ¬best (MAX_LENGTH + 1) < 2 ^ 31 := by decide
    exact hover (lt_of_le_of_lt (best_mono (by omega)) hrange.2)
  · intro hle
    have hunder : best MAX_LENGTH < 2 ^ 31 := by decide
    exact ⟨le_trans (by decide) (best_nonneg n), lt_of_le_of_lt (best_mono hle) hunder⟩

/-- A sum that is no more than the greatest price is an `int` with it. -/
theorem range_of_le {x : Int} {n : Nat} (h0 : 0 ≤ x) (hle : x ≤ best n)
    (h : Int32Range (best n)) : Int32Range x :=
  ⟨le_trans (by decide) h0, lt_of_le_of_lt hle h.2⟩

/-! ### The tables of the memoized program -/

namespace Memoized

open LearnGit.DynamicProgramming.CutRodSolution.Memoized

/-- The solution for `k` is a first piece of a price `m`, and the rest is in the table. -/
structure FirstPiece (s : PerfectSolution) (k : Nat) (m : Int) : Prop where
  priced : Priced (s.selectedSolution k)
  le : s.selectedSolution k ≤ k
  total : priceOf (s.selectedSolution k) + best (k - s.selectedSolution k) = m
  rest : k - s.selectedSolution k = 0 ∨
    s.selectedPrice (k - s.selectedSolution k) = best (k - s.selectedSolution k)
  range : Int32Range m

/-- An entry that was computed. -/
structure Entry (s : PerfectSolution) (k : Nat) : Prop where
  selected : s.selectedPrice k = best k
  piece : FirstPiece s k (best k)

/-- Each entry up to `n` was not computed, or it is right. -/
def Memo (s : PerfectSolution) (n : Nat) : Prop :=
  ∀ k, 0 < k → k ≤ n → s.selectedPrice k = 0 ∨ Entry s k

/-- Only entries up to `n` that were not computed have changed. -/
def Extends (n : Nat) (s s' : PerfectSolution) : Prop :=
  ∀ k, n < k ∨ s.selectedPrice k ≠ 0 →
    s'.selectedPrice k = s.selectedPrice k ∧ s'.selectedSolution k = s.selectedSolution k

/-- A table extends itself. -/
theorem Extends.refl (n : Nat) (s : PerfectSolution) : Extends n s s := fun _ _ => ⟨rfl, rfl⟩

/-- One extension after the other. -/
theorem Extends.trans {m n : Nat} {s s' s'' : PerfectSolution} (h : Extends m s s')
    (h' : Extends n s' s'') (hmn : m ≤ n) : Extends n s s'' := by
  intro k hk
  have hfirst : m < k ∨ s.selectedPrice k ≠ 0 := hk.imp (fun h => by omega) id
  obtain ⟨hprice, hsolution⟩ := h k hfirst
  have hsecond : n < k ∨ s'.selectedPrice k ≠ 0 := hk.imp id fun hne => by rwa [hprice]
  obtain ⟨hprice', hsolution'⟩ := h' k hsecond
  exact ⟨hprice'.trans hprice, hsolution'.trans hsolution⟩

/-- An extension up to `m` is one up to a greater length. -/
theorem Extends.mono {m n : Nat} {s s' : PerfectSolution} (h : Extends m s s') (hmn : m ≤ n) :
    Extends n s s' :=
  (Extends.refl m s).trans (h.trans (Extends.refl n s') hmn) hmn

/-- A rest that is in the table stays there. -/
theorem Extends.rest {n k : Nat} {s s' : PerfectSolution} (h : Extends n s s')
    (hk : k = 0 ∨ s.selectedPrice k = best k) : k = 0 ∨ s'.selectedPrice k = best k := by
  rcases Nat.eq_zero_or_pos k with hzero | hpos
  · exact .inl hzero
  · have hprice : s.selectedPrice k = best k := hk.resolve_left (by omega)
    have hne : s.selectedPrice k ≠ 0 := by
      rw [hprice]
      exact (best_pos hpos).ne'
    exact .inr ((h k (.inr hne)).1.trans hprice)

/-- A first piece depends on its length and on smaller ones. -/
theorem FirstPiece.transfer {k : Nat} {s s' : PerfectSolution} {m : Int} (h : FirstPiece s k m)
    (hsolution : s'.selectedSolution k = s.selectedSolution k)
    (hrest : ∀ j < k, j = 0 ∨ s.selectedPrice j = best j → j = 0 ∨ s'.selectedPrice j = best j) :
    FirstPiece s' k m := by
  have hpos := h.priced.1
  have hle := h.le
  constructor
  · rw [hsolution]
    exact h.priced
  · rw [hsolution]
    exact h.le
  · rw [hsolution]
    exact h.total
  · rw [hsolution]
    exact hrest _ (by omega) h.rest
  · exact h.range

/-- A call for a smaller length keeps the table right. -/
theorem Memo.extend {m n : Nat} {s s' : PerfectSolution} (h : Memo s n) (h' : Memo s' m)
    (hext : Extends m s s') : Memo s' n := by
  intro k hpos hk
  rcases Nat.lt_or_ge m k with hlt | hle
  · -- The entries behind `m` are as they were, and their first pieces have rests below `k`.
    obtain ⟨hprice, -⟩ := hext k (.inl hlt)
    rcases h k hpos hk with hzero | hentry
    · exact .inl (hprice.trans hzero)
    · refine .inr ⟨hprice.trans hentry.selected, hentry.piece.transfer ?_ ?_⟩
      · exact (hext k (.inl hlt)).2
      · exact fun _ _ hrest => hext.rest hrest
  · exact h' k hpos hle

/-- The table up to `n` does not depend on what is behind it. -/
theorem Memo.congr {n : Nat} {s s' : PerfectSolution} (h : Memo s n)
    (hprice : ∀ k ≤ n, s'.selectedPrice k = s.selectedPrice k)
    (hsolution : ∀ k ≤ n, s'.selectedSolution k = s.selectedSolution k) : Memo s' n := by
  intro k hpos hk
  rcases h k hpos hk with hzero | hentry
  · exact .inl ((hprice k hk).trans hzero)
  · refine .inr ⟨(hprice k hk).trans hentry.selected, hentry.piece.transfer (hsolution k hk) ?_⟩
    intro j hj hrest
    rwa [hprice j (by omega)]

/-- A right table is right up to a smaller length. -/
theorem Memo.mono {m n : Nat} {s : PerfectSolution} (h : Memo s n) (hmn : m ≤ n) : Memo s m :=
  fun k hpos hk => h k hpos (hk.trans hmn)

/-- What `cut_rod` has done when it returns. -/
structure Computed (n : Nat) (s : PerfectSolution) (out : Int × PerfectSolution) : Prop where
  value : out.1 = best n
  memo : Memo out.2 n
  extends_ : Extends n s out.2
  entry : n = 0 ∨ out.2.selectedPrice n = best n

/-! ### The loop of the memoized program -/

section Loop

variable {cutRod : Nat → Eval} {length : Nat} {ok : Prop}

/-- What the calls in an expression have left below `length`, where the expression has the value
`m` and the rest has the length `k`. -/
structure Evaluated (length k : Nat) (m : Int) (s : PerfectSolution) (out : Int × PerfectSolution) :
    Prop where
  value : out.1 = m
  range : Int32Range m
  memo : Memo out.2 (length - 1)
  extends_ : Extends (length - 1) s out.2
  rest : k = 0 ∨ out.2.selectedPrice k = best k

/-- The calls for smaller lengths do what they should, and so does the one that finds its price. -/
structure CallsRight (cutRod : Nat → Eval) (length : Nat) (ok : Prop) : Prop where
  smaller : ∀ k s, k < length → Memo s k → Yields ok (Computed k s) (cutRod k s)
  same : ∀ s, 0 < s.selectedPrice length →
    Yields ok (fun out => out = (s.selectedPrice length, s)) (cutRod length s)
  range : ok → Int32Range (best length)

/-- The value of a piece with a price and of the rest, with their calls. -/
theorem pricedPiece_yields (h : CallsRight cutRod length ok) {i : Nat} (hi : Priced i)
    (hle : i ≤ length) {s : PerfectSolution} (hs : Memo s (length - 1)) :
    Yields ok (Evaluated length (length - i) (priceOf i + best (length - i)) s)
      (pricedPiece cutRod length i s) := by
  obtain ⟨hlo, hhi⟩ := hi
  have hprice : price[i]? = some (priceOf i) := by
    have htable : ∀ i, i ≤ 10 → price[i]? = some (priceOf i) := by decide
    exact htable i hhi
  rw [pricedPiece, hprice]
  refine (h.smaller (length - i) s (by omega) (hs.mono (by omega))).bind ?_
  rintro ⟨rest, s'⟩ - hcall
  have hvalue : rest = best (length - i) := hcall.value
  have htotal : priceOf i + best (length - i) ≤ best length := by
    have hstep := best_step ⟨hlo, hhi⟩ (length - i)
    rwa [Nat.add_sub_of_le hle] at hstep
  have hnonneg : 0 ≤ priceOf i + best (length - i) :=
    Int.add_nonneg (priceOf_pos ⟨hlo, hhi⟩).le (best_nonneg _)
  refine (yields_int32 fun hok => ?_).bind ?_
  · rw [hvalue]
    exact range_of_le hnonneg htotal (h.range hok)
  · rintro total - ⟨rfl, hrange⟩
    rw [hvalue] at hrange ⊢
    exact ⟨rfl, hrange, hs.extend hcall.memo hcall.extends_, hcall.extends_.mono (by omega),
      hcall.entry⟩

/-- The value of a piece that is cut itself and of the rest, with their calls. -/
theorem cutPiece_yields (h : CallsRight cutRod length ok) {i : Nat} (hlo : 0 < i)
    (hlt : i < length) {s : PerfectSolution} (hs : Memo s (length - 1)) :
    Yields ok (Evaluated length (length - i) (best i + best (length - i)) s)
      (cutPiece cutRod length i s) := by
  rw [cutPiece]
  refine (h.smaller i s hlt (hs.mono (by omega))).bind ?_
  rintro ⟨first, s'⟩ - hfirst
  have hs' : Memo s' (length - 1) := hs.extend hfirst.memo hfirst.extends_
  have hext : Extends (length - 1) s s' := hfirst.extends_.mono (by omega)
  refine (h.smaller (length - i) s' (by omega) (hs'.mono (by omega))).bind ?_
  rintro ⟨rest, s''⟩ - hrest
  have hsum : first + rest = best i + best (length - i) := by
    rw [show first = best i from hfirst.value, show rest = best (length - i) from hrest.value]
  have htotal : best i + best (length - i) ≤ best length := by
    have hadd := best_add i (length - i)
    rwa [Nat.add_sub_of_le hlt.le] at hadd
  have hnonneg : 0 ≤ best i + best (length - i) :=
    Int.add_nonneg (best_nonneg i) (best_nonneg _)
  refine (yields_int32 fun hok => ?_).bind ?_
  · rw [hsum]
    exact range_of_le hnonneg htotal (h.range hok)
  · rintro total - ⟨rfl, hrange⟩
    rw [hsum] at hrange ⊢
    exact ⟨rfl, hrange, hs'.extend hrest.memo hrest.extends_,
      hext.trans (hrest.extends_.mono (by omega)) (Nat.le_refl _), hrest.entry⟩

/-- The call for the whole length finds the price that was selected so far. -/
theorem cutPiece_same (h : CallsRight cutRod length ok) (hpos : 0 < length) {s : PerfectSolution}
    (hs : Memo s (length - 1)) (hprice : 0 < s.selectedPrice length)
    (hrange : Int32Range (s.selectedPrice length)) :
    Yields ok (Evaluated length 0 (s.selectedPrice length) s)
      (cutPiece cutRod length length s) := by
  rw [cutPiece, Nat.sub_self]
  refine (h.same s hprice).bind ?_
  rintro ⟨first, s'⟩ - hfirst
  obtain ⟨rfl, rfl⟩ := Prod.mk.inj hfirst
  refine (h.smaller 0 s' hpos (hs.mono (Nat.zero_le _))).bind ?_
  rintro ⟨rest, s''⟩ - hrest
  have hsum : s'.selectedPrice length + rest = s'.selectedPrice length := by
    rw [show rest = best 0 from hrest.value, best_zero, Int.add_zero]
  refine (yields_int32 fun _ => ?_).bind ?_
  · rwa [hsum]
  · rintro total - ⟨rfl, -⟩
    rw [hsum]
    exact ⟨rfl, hrange, hs.extend hrest.memo hrest.extends_, hrest.extends_.mono (by omega),
      .inl rfl⟩

/-- The tables before the round of `i`: the price that is selected is the greatest one with a first
piece before `i`. -/
structure Tried (length i : Nat) (s : PerfectSolution) (l : CutLocals) : Prop where
  start : s.selectedPrice length = 0
  memo : Memo l.ourSolution (length - 1)
  extends_ : Extends length s l.ourSolution
  selected : l.ourSolution.selectedPrice length = l.max
  found : (i = 1 ∧ l.max = 0) ∨ FirstPiece l.ourSolution length l.max
  tried : ∀ p, Priced p → p < i → priceOf p + best (length - p) ≤ l.max

variable {s : PerfectSolution} {l : CutLocals} {i : Nat}

/-- From the second round on a first piece is selected. -/
theorem Tried.firstPiece (h : Tried length i s l) (hi : 1 < i) :
    FirstPiece l.ourSolution length l.max :=
  h.found.resolve_left fun hone => by omega

/-- A value that is not more than `max` changes nothing but the table below. -/
theorem Tried.skip (h : Tried length i s l) (hpos : 0 < length)
    (hfound : FirstPiece l.ourSolution length l.max) {k : Nat} {m : Int}
    {out : Int × PerfectSolution} (heval : Evaluated length k m l.ourSolution out)
    (hnext : Priced i → priceOf i + best (length - i) ≤ l.max) :
    Tried length (i + 1) s ⟨l.max, out.2⟩ := by
  obtain ⟨hprice, hsolution⟩ := heval.extends_ length (.inl (by omega))
  refine ⟨h.start, heval.memo, h.extends_.trans (heval.extends_.mono (by omega)) (Nat.le_refl _),
    hprice.trans h.selected, ?_, ?_⟩
  · exact .inr (hfound.transfer hsolution fun _ _ hrest => heval.extends_.rest hrest)
  · intro p hp hlt
    rcases Nat.lt_succ_iff_lt_or_eq.mp hlt with hlt | rfl
    · exact h.tried p hp hlt
    · exact hnext hp

/-- A first piece of a higher price is selected. -/
theorem Tried.select (h : Tried length i s l) (hi : Priced i) (hle : i ≤ length) {m : Int}
    (hm : m = priceOf i + best (length - i)) (hmore : l.max < m) {s' : PerfectSolution}
    {out : Int × PerfectSolution} (hext : Extends length s out.2)
    (heval : Evaluated length (length - i) m s' out) :
    Tried length (i + 1) s ⟨m, out.2.select length m i⟩ := by
  have hbelow : ∀ k, k ≠ length →
      (out.2.select length m i).selectedPrice k = out.2.selectedPrice k ∧
        (out.2.select length m i).selectedSolution k = out.2.selectedSolution k := by
    intro k hk
    exact ⟨Function.update_of_ne hk _ _, Function.update_of_ne hk _ _⟩
  have hsolution : (out.2.select length m i).selectedSolution length = i :=
    Function.update_self _ _ _
  have hlo := hi.1
  refine ⟨h.start, ?_, ?_, Function.update_self _ _ _, .inr ?_, ?_⟩
  · exact heval.memo.congr (fun k hk => (hbelow k (by omega)).1)
      (fun k hk => (hbelow k (by omega)).2)
  · intro k hk
    -- The entry for `length` was not computed when the loop began.
    have hne : k ≠ length := by
      rintro rfl
      exact hk.elim (Nat.lt_irrefl k) fun hne => hne h.start
    obtain ⟨hprice, hsol⟩ := hbelow k hne
    obtain ⟨hprice', hsol'⟩ := hext k hk
    exact ⟨hprice.trans hprice', hsol.trans hsol'⟩
  · constructor
    · rw [hsolution]
      exact hi
    · rw [hsolution]
      exact hle
    · rw [hsolution]
      exact hm.symm
    · rw [hsolution, (hbelow (length - i) (by omega)).1]
      exact heval.rest
    · exact heval.range
  · intro p hp hlt
    show priceOf p + best (length - p) ≤ m
    rcases Nat.lt_succ_iff_lt_or_eq.mp hlt with hlt | rfl
    · have := h.tried p hp hlt
      omega
    · exact hm.ge

/-- The round of a piece that has a price. -/
theorem Tried.priced (h : Tried length i s l) (hi : Priced i) (hle : i ≤ length)
    (hcalls : CallsRight cutRod length ok) :
    Yields ok (Tried length (i + 1) s) (takeMax (pricedPiece cutRod length i) length i l) := by
  have hpos : 0 < length := Nat.lt_of_lt_of_le hi.1 hle
  rw [takeMax]
  refine (pricedPiece_yields hcalls hi hle h.memo).bind ?_
  rintro ⟨total, s'⟩ - hfirst
  have htotal : total = priceOf i + best (length - i) := hfirst.value
  have hext : Extends length s s' :=
    h.extends_.trans (hfirst.extends_.mono (by omega)) (Nat.le_refl _)
  show Yields ok _ (if l.max < total then _ else _)
  split
  · -- The value is computed again, with what the first computation has left in the table.
    rename_i hmore
    refine (pricedPiece_yields hcalls hi hle hfirst.memo).bind ?_
    rintro ⟨total', s''⟩ - hsecond
    have htotal' : total' = priceOf i + best (length - i) := hsecond.value
    have hext' := hext.trans (hsecond.extends_.mono (by omega)) (Nat.le_refl length)
    show Tried length (i + 1) s ⟨total', s''.select length total' i⟩
    rw [htotal']
    exact h.select hi hle rfl (htotal ▸ hmore) hext' hsecond
  · rename_i hless
    refine h.skip hpos ?_ hfirst fun _ => by omega
    refine h.found.resolve_left fun hone => ?_
    have hprice := priceOf_pos hi
    have hrest := best_nonneg (length - i)
    omega

/-- With all pieces that have a price, the price is the greatest one. -/
theorem Tried.max_eq (h : Tried length i s l) (hpos : 0 < length) (hi : length < i ∨ 10 < i) :
    l.max = best length := by
  obtain ⟨p, hp, hp0, hle, heq⟩ := best_reach hpos
  have hp10 := hp.2
  have htried := h.tried p hp (by omega)
  have hpiece := h.firstPiece (by omega)
  have hbound : l.max ≤ best length := by
    have hstep := best_step hpiece.priced (length - l.ourSolution.selectedSolution length)
    rw [Nat.add_sub_of_le hpiece.le] at hstep
    rw [← hpiece.total]
    exact hstep
  omega

/-- The round of a piece that has no price. -/
theorem Tried.unpriced (h : Tried length i s l) (hi : PRICERANGE < i) (hle : i ≤ length)
    (hcalls : CallsRight cutRod length ok) :
    Yields ok (Tried length (i + 1) s) (takeMax (cutPiece cutRod length i) length i l) := by
  have hi' : 11 < i := hi
  have hpos : 0 < length := by omega
  have hmax : l.max = best length := h.max_eq hpos (.inr (by omega))
  have hpiece := h.firstPiece (by omega)
  have hvalue : ∃ k m, m ≤ l.max ∧
      Yields ok (Evaluated length k m l.ourSolution) (cutPiece cutRod length i l.ourSolution) := by
    -- Neither two parts of the rod nor the rod itself are worth more than what was found.
    rcases Nat.lt_or_eq_of_le hle with hlt | rfl
    · have hadd := best_add i (length - i)
      rw [Nat.add_sub_of_le hle, ← hmax] at hadd
      exact ⟨_, _, hadd, cutPiece_yields hcalls (by omega) hlt h.memo⟩
    · have hprice : 0 < l.ourSolution.selectedPrice i := by
        rw [h.selected, hmax]
        exact best_pos hpos
      refine ⟨_, _, h.selected.le, cutPiece_same hcalls hpos h.memo hprice ?_⟩
      rw [h.selected]
      exact hpiece.range
  obtain ⟨k, m, hm, hyields⟩ := hvalue
  rw [takeMax]
  refine hyields.bind ?_
  rintro ⟨total, s'⟩ - heval
  have htotal : total = m := heval.value
  show Yields ok _ (if l.max < total then _ else _)
  rw [if_neg (by omega)]
  refine h.skip hpos hpiece heval fun hpriced => ?_
  have := hpriced.2
  omega

/-- A round tries its piece. -/
theorem cutRound_yields (hcalls : CallsRight cutRod length ok) (hlo : 1 ≤ i) (hle : i ≤ length)
    (h : Tried length i s l) :
    Yields ok (Tried length (i + 1) s) (cutRound cutRod length i l) := by
  have hrange : PRICERANGE = 11 := rfl
  rw [cutRound]
  split
  · exact h.priced ⟨hlo, by omega⟩ hle hcalls
  · split
    · rename_i hmore
      exact h.unpriced hmore hle hcalls
    · -- A piece of 11 is not tried.
      refine ⟨h.start, h.memo, h.extends_, h.selected, .inr (h.firstPiece (by omega)), ?_⟩
      intro p hp _
      have hp10 := hp.2
      exact h.tried p hp (by omega)

/-- The loop tries all pieces. -/
theorem cutLoop_yields (hcalls : CallsRight cutRod length ok) (hpos : 0 < length)
    (hstart : s.selectedPrice length = 0) (hmemo : Memo s (length - 1)) :
    Yields ok (Tried length (length + 1) s)
      (forUpM 1 (length + 1) (cutRound cutRod length) ⟨0, s⟩) := by
  refine forUpM_yields (P := fun i => Tried length i s) (by omega) ?_ ?_
  · refine ⟨hstart, hmemo, Extends.refl _ _, hstart, .inl ⟨rfl, rfl⟩, ?_⟩
    intro p hp hlt
    have := hp.1
    omega
  · intro i l hlo hhi h
    exact cutRound_yields hcalls hlo (by omega) h

end Loop

/-- The calls of a call have one level less, and the one for the same length needs no more. -/
theorem callsRight_succ {fuel length : Nat}
    (ih : ∀ k s, Memo s k → Yields (k < fuel ∧ Int32Range (best k)) (Computed k s)
      (cutRod fuel k s)) (hpos : 0 < length) :
    CallsRight (cutRod fuel) length (length < fuel + 1 ∧ Int32Range (best length)) where
  smaller k s hk hs := by
    refine (ih k s hs).mono (fun hok => ⟨by omega, ?_⟩) fun _ h => h
    exact range_of_le (best_nonneg k) (best_mono hk.le) hok.2
  same s hs := by
    cases fuel with
    | zero => exact fun hok => by omega
    | succ fuel =>
      rw [cutRod, if_neg (by omega), if_pos hs]
      rfl
  range hok := hok.2

/-- `cut_rod` computes the greatest price. It is defined where that is an `int`, and it does not
need to call itself more often than the rod has units. -/
theorem cutRod_yields (fuel length : Nat) (s : PerfectSolution) (hmemo : Memo s length) :
    Yields (length < fuel ∧ Int32Range (best length)) (Computed length s)
      (cutRod fuel length s) := by
  induction fuel generalizing length s with
  | zero => exact fun hok => absurd hok.1 (Nat.not_lt_zero length)
  | succ fuel ih =>
    rw [cutRod]
    split
    · rename_i hle
      obtain rfl : length = 0 := Nat.le_zero.mp hle
      exact ⟨best_zero.symm, hmemo, Extends.refl 0 s, .inl rfl⟩
    · rename_i hlength
      have hpos : 0 < length := by omega
      split
      · rename_i hprice
        have hentry : Entry s length :=
          (hmemo length hpos (Nat.le_refl length)).resolve_left (by omega)
        exact ⟨hentry.selected, hmemo, Extends.refl length s, .inr hentry.selected⟩
      · rename_i hprice
        have hzero : s.selectedPrice length = 0 := by
          refine (hmemo length hpos (Nat.le_refl length)).resolve_right fun hentry => hprice ?_
          rw [hentry.selected]
          exact best_pos hpos
        refine (cutLoop_yields (callsRight_succ ih hpos) hpos hzero
          (hmemo.mono (Nat.sub_le _ _))).map fun l hl => ?_
        have hmax : l.max = best length := hl.max_eq hpos (.inl (Nat.lt_succ_self length))
        have hselected : l.ourSolution.selectedPrice length = best length :=
          hl.selected.trans hmax
        refine ⟨hselected, ?_, hl.extends_, .inr hselected⟩
        intro k hk hle
        rcases Nat.lt_or_eq_of_le hle with hlt | rfl
        · exact hl.memo k hk (by omega)
        · refine .inr ⟨hselected, ?_⟩
          rw [← hmax]
          exact hl.firstPiece (by omega)

/-- The pieces that are printed: those of the table, one after the other. -/
theorem printPieces_entry {s : PerfectSolution} (fuel n : Nat) (hfuel : n ≤ fuel)
    (hmemo : Memo s n) (hentry : n = 0 ∨ s.selectedPrice n = best n) :
    ∃ l, printPieces s.selectedSolution fuel n = some l ∧ PartsOf Priced n l ∧
      (l.map priceOf).sum = best n := by
  induction fuel generalizing n with
  | zero =>
    obtain rfl : n = 0 := Nat.le_zero.mp hfuel
    exact ⟨[], rfl, PartsOf.nil, best_zero.symm⟩
  | succ fuel ih =>
    cases n with
    | zero => exact ⟨[], rfl, PartsOf.nil, best_zero.symm⟩
    | succ n =>
      have hprice : s.selectedPrice (n + 1) = best (n + 1) := hentry.resolve_left (by omega)
      have hpos : 0 < best (n + 1) := best_pos (Nat.succ_pos n)
      have hpiece := ((hmemo (n + 1) (by omega) (Nat.le_refl _)).resolve_left (by omega)).piece
      have hlo := hpiece.priced.1
      obtain ⟨l, hprint, hparts, hsum⟩ := ih (n + 1 - s.selectedSolution (n + 1)) (by omega)
        (hmemo.mono (by omega)) hpiece.rest
      refine ⟨s.selectedSolution (n + 1) :: l, by rw [printPieces, hprint, Option.map_some], ?_, ?_⟩
      · have hcons := hparts.cons hpiece.priced
        rwa [Nat.add_sub_of_le hpiece.le] at hcons
      · rw [List.map_cons, List.sum_cons, hsum, hpiece.total]

end Memoized

/-! ### The memoized program -/

/-- The program for a rod of `n` units: its call of `cut_rod_proc` returns the greatest price, and
the pieces that are printed have it. -/
def MemoizedRight (calloc : Bool) (n : Nat) : Prop :=
  ∃ fuel r s l, Memoized.cutRodProc fuel calloc n = some (r, s) ∧
    printPieces s.selectedSolution fuel n = some l ∧
    IsGreatest (totals Priced priceOf n) r ∧ PartsOf Priced n l ∧ (l.map priceOf).sum = r

/-- The tables are zero, where they are allocated. -/
theorem initPerfectSolution_eq_some {calloc : Bool} {length : Nat} {s : PerfectSolution}
    (h : initPerfectSolution calloc length = some s) :
    calloc = true ∧ s = ⟨fun _ => 0, fun _ => 0⟩ := by
  rw [initPerfectSolution] at h
  obtain ⟨_, -, h⟩ := Option.bind_eq_some_iff.mp h
  cases calloc with
  | false => cases h
  | true => exact ⟨rfl, (Option.some.inj h).symm⟩

/-- A table in which nothing was computed is right. -/
theorem memo_empty (n : Nat) : Memoized.Memo ⟨fun _ => 0, fun _ => 0⟩ n := fun _ _ _ => .inl rfl

/-- A run that returns has computed the greatest price. -/
theorem MemoizedRight.le_max {calloc : Bool} {n : Nat} (h : MemoizedRight calloc n) (hn : 1 ≤ n) :
    calloc = true ∧ n ≤ MAX_LENGTH := by
  obtain ⟨fuel, r, s, l, hrun, -⟩ := h
  rw [Memoized.cutRodProc] at hrun
  obtain ⟨s₀, hinit, hrun⟩ := Option.bind_eq_some_iff.mp hrun
  obtain ⟨rfl, rfl⟩ := initPerfectSolution_eq_some hinit
  have hcomputed := (Memoized.cutRod_yields fuel n _ (memo_empty n)).of_eq_some hrun
  have hprice : s.selectedPrice n = best n := hcomputed.entry.resolve_left (by omega)
  have hpos : 0 < best n := best_pos hn
  have hentry := (hcomputed.memo n hn (Nat.le_refl n)).resolve_left (ne_of_gt (hprice ▸ hpos))
  exact ⟨rfl, (best_range_iff n).mp hentry.piece.range⟩

/-- The memoized program is right for every rod whose greatest price is an `int`, which are those of
up to 715827882 units, where its tables are allocated. -/
theorem memoized_right_iff (calloc : Bool) {n : Nat} (hn : 1 ≤ n) :
    MemoizedRight calloc n ↔ calloc = true ∧ n ≤ 715827882 := by
  refine ⟨fun h => h.le_max hn, ?_⟩
  rintro ⟨rfl, hle⟩
  have hinit : initPerfectSolution true n = some ⟨fun _ => 0, fun _ => 0⟩ := by
    rw [initPerfectSolution, int32_of_range ⟨by omega, by omega⟩]
    rfl
  obtain ⟨⟨r, s⟩, hrun, hcomputed⟩ := (Memoized.cutRod_yields (n + 1) n _ (memo_empty n)).exists_of
    ⟨Nat.lt_succ_self n, (best_range_iff n).mpr hle⟩
  obtain ⟨l, hprint, hparts, hsum⟩ := Memoized.printPieces_entry (n + 1) n (Nat.le_succ n)
    hcomputed.memo hcomputed.entry
  have hr : r = best n := hcomputed.value
  refine ⟨n + 1, r, s, l, ?_, hprint, ?_, hparts, ?_⟩
  · rw [Memoized.cutRodProc, hinit]
    exact hrun
  · rw [hr]
    exact best_greatest n
  · rw [hr, hsum]

/-- A rod of 12 units: the loop also calls `cut_rod` for 12. -/
theorem memoized_right_twelve : MemoizedRight true 12 :=
  (memoized_right_iff true (by decide)).mpr ⟨rfl, by decide⟩

/-- A rod of 715827883 units is worth 2147483648, which is no `int`. -/
theorem memoized_overflow : ¬MemoizedRight true 715827883 := by
  intro h
  exact absurd (h.le_max (by decide)).2 (by decide)

/-! ### The bottom-up programs -/

/-- The pieces that are printed are a way to cut the rod, of the greatest price. -/
def PrintsBest (n : Nat) (main : Nat → Option (List Nat)) : Prop :=
  ∃ fuel l, main fuel = some l ∧ PartsOf Priced n l ∧
    IsGreatest (totals Priced priceOf n) (l.map priceOf).sum

/-- A program without a result prints nothing. -/
theorem not_printsBest {n : Nat} {main : Nat → Option (List Nat)} (h : ∀ fuel, main fuel = none) :
    ¬PrintsBest n main := by
  rintro ⟨fuel, l, hrun, -⟩
  rw [h fuel] at hrun
  cases hrun

/-- The pieces of a rod of up to ten units. -/
def smallPieces (n : Nat) : List Nat :=
  [[], [1], [2], [3], [2, 2], [2, 3], [6], [1, 6], [2, 6], [3, 6], [10]].getD n []

instance (p : Nat) : Decidable (Priced p) := inferInstanceAs (Decidable (_ ∧ _))

/-- The pieces of `smallPieces` are the best up to ten units. -/
theorem printsBest_small {n : Nat} (hn : n ≤ 10) {main : Nat → Option (List Nat)}
    (h : main 10 = some (smallPieces n)) : PrintsBest n main := by
  have htable : ∀ n, n ≤ 10 → ((∀ p ∈ smallPieces n, Priced p) ∧ (smallPieces n).sum = n) ∧
      ((smallPieces n).map priceOf).sum = best n := by decide
  obtain ⟨hparts, hsum⟩ := htable n hn
  refine ⟨10, smallPieces n, h, hparts, ?_⟩
  rw [hsum]
  exact best_greatest n

/-- `bottom_up.c` prints them up to ten units. -/
theorem bottomUp_small : ∀ n, n ≤ 10 → 1 ≤ n →
    BottomUp.main 10 true n = some (smallPieces n) := by
  decide +kernel

/-- `extended_bottom_up_cut_rod.c` prints them up to ten units. -/
theorem extended_small : ∀ n, n ≤ 10 → 1 ≤ n →
    Extended.main 10 true n = some (smallPieces n) := by
  decide +kernel

/-- For a length of 11 the price of a piece of 11 is read. -/
theorem bottomUp_eleven (s : PerfectSolution) : BottomUp.cutLength 11 s = none := by
  rw [BottomUp.cutLength, forUpM_none_of_round (k := 11) (by decide) (by decide) fun _ => rfl]
  rfl

/-- The other program reads it too. -/
theorem extended_eleven (m : Extended.CutRodMethod) : Extended.cutLength 11 m = none := by
  rw [Extended.cutLength, forUpM_none_of_round (k := 11) (by decide) (by decide) fun _ => rfl]
  rfl

/-- `bottom_up.c` has no result for a longer rod. -/
theorem bottomUp_undefined (fuel : Nat) (calloc : Bool) {n : Nat}
    (h : ¬(calloc = true ∧ n ≤ 10)) : BottomUp.main fuel calloc n = none := by
  rw [BottomUp.main]
  cases hinit : initPerfectSolution calloc n with
  | none => rfl
  | some s =>
    obtain ⟨rfl, -⟩ := initPerfectSolution_eq_some hinit
    have hlong : ¬n ≤ 10 := fun hle => h ⟨rfl, hle⟩
    have hloop : BottomUp.cutRod n s = none :=
      forUpM_none_of_round (by decide) (show 11 < n + 1 by omega) bottomUp_eleven
    show (BottomUp.cutRod n s).bind _ = none
    rw [hloop]
    rfl

/-- `extended_bottom_up_cut_rod.c` has no result for a longer rod. -/
theorem extended_undefined (fuel : Nat) (calloc : Bool) {n : Nat}
    (h : ¬(calloc = true ∧ n ≤ 10)) : Extended.main fuel calloc n = none := by
  rw [Extended.main]
  have hrun : Extended.bottomUpCutRod calloc n = none := by
    rw [Extended.bottomUpCutRod]
    cases int32 (n + 1) with
    | none => rfl
    | some size =>
      cases calloc with
      | false => rfl
      | true =>
        have hlong : ¬n ≤ 10 := fun hle => h ⟨rfl, hle⟩
        exact forUpM_none_of_round (by decide) (show 11 < n + 1 by omega) extended_eleven
  rw [hrun]
  rfl

/-- The two programs read within the price table, and print the pieces of the greatest price. -/
def BottomUpRight (calloc : Bool) (n : Nat) : Prop :=
  PrintsBest n (Extended.main · calloc n) ∧ PrintsBest n (BottomUp.main · calloc n)

/-- Both programs test a piece against 11 with `<=`, so that they are right for the rods that no
piece of 11 fits into. -/
theorem bottomUp_right_iff (calloc : Bool) {n : Nat} (hn : 1 ≤ n) :
    BottomUpRight calloc n ↔ calloc = true ∧ n ≤ 10 := by
  constructor
  · rintro ⟨hextended, -⟩
    by_contra hnot
    exact not_printsBest (fun fuel => extended_undefined fuel calloc hnot) hextended
  · rintro ⟨rfl, hle⟩
    exact ⟨printsBest_small hle (extended_small n hle hn),
      printsBest_small hle (bottomUp_small n hle hn)⟩

/-- A rod of ten units. -/
theorem bottomUp_right_ten : BottomUpRight true 10 :=
  (bottomUp_right_iff true (by decide)).mpr ⟨rfl, by decide⟩

/-- A rod of 11 units: both programs read `price[11]`. -/
theorem bottomUp_wrong_eleven : ¬PrintsBest 11 (Extended.main · true 11) ∧
    ¬PrintsBest 11 (BottomUp.main · true 11) :=
  ⟨not_printsBest fun fuel => extended_undefined fuel true (by decide),
    not_printsBest fun fuel => bottomUp_undefined fuel true (by decide)⟩

end LearnGit.Proofs.DynamicProgramming.CutRodSolution
