import LearnGit.Lib.Loop
import Mathlib.Algebra.Ring.Int.Defs

/-!
# `LearnGit.Lib.Checked`: computations that may be undefined

The result of a computation is an `Option`: `none` where it is undefined. `int32` and `int64` are
undefined where a number is not one of a signed type, and the elements of `Cells` and of `Grid` are
read and written within their bounds only.

`Yields ok Q o` says both what a computation is defined for and what it results in: `o` is defined
where `ok` holds, and a value of `o` has the property `Q` in any case. `Yields.bind` is the rule for
one computation after the other, and `forUpM_yields` the invariant rule of a loop.
-/

set_option autoImplicit false

namespace LearnGit.Lib

variable {σ τ : Type}

/-! ### Results -/

/-- Where `ok` holds there is a value, and a value has the property `Q`. -/
def Yields (ok : Prop) (Q : σ → Prop) : Option σ → Prop
  | none => ¬ok
  | some s => Q s

section
variable {ok : Prop} {Q : σ → Prop} {o : Option σ}

/-- A value has the property. -/
theorem Yields.of_eq_some (h : Yields ok Q o) {s : σ} (hs : o = some s) : Q s := by
  subst hs
  exact h

/-- Under the condition there is a value with the property. -/
theorem Yields.exists_of (h : Yields ok Q o) (hok : ok) : ∃ s, o = some s ∧ Q s := by
  cases o with
  | none => exact absurd hok h
  | some s => exact ⟨s, rfl, h⟩

/-- A stronger condition and a weaker property. -/
theorem Yields.mono {ok' : Prop} {Q' : σ → Prop} (h : Yields ok Q o) (hok : ok' → ok)
    (hQ : ∀ s, Q s → Q' s) : Yields ok' Q' o := by
  cases o with
  | none => exact fun h' => h (hok h')
  | some s => exact hQ s h

/-- One computation after the other. -/
theorem Yields.bind {Q' : τ → Prop} {f : σ → Option τ} (h : Yields ok Q o)
    (hf : ∀ s, o = some s → Q s → Yields ok Q' (f s)) : Yields ok Q' (o.bind f) := by
  cases o with
  | none => exact h
  | some s => exact hf s rfl h

/-- A function of the value. -/
theorem Yields.map {Q' : τ → Prop} {f : σ → τ} (h : Yields ok Q o) (hf : ∀ s, Q s → Q' (f s)) :
    Yields ok Q' (o.map f) := by
  cases o with
  | none => exact h
  | some s => exact hf s h

end

/-- The invariant rule of a loop with rounds that may be undefined. -/
theorem forUpM_yields {ok : Prop} {P : Nat → σ → Prop} {lo hi : Nat} {s : σ}
    {body : Nat → σ → Option σ} (hle : lo ≤ hi) (hinit : P lo s)
    (hstep : ∀ i s, lo ≤ i → i < hi → P i s → Yields ok (P (i + 1)) (body i s)) :
    Yields ok (P hi) (forUpM lo hi body s) := by
  refine forUp_induct (P := fun i o => Yields ok (P i) o) hle hinit ?_
  intro i hlo hhi o ho
  exact ho.bind fun s _ hs => hstep i s hlo hhi hs

/-- The invariant rule of a fold. -/
theorem foldlM_yields {ok : Prop} {P : σ → Prop} {l : List τ} {s : σ} {f : σ → τ → Option σ}
    (hinit : P s) (hstep : ∀ s, ∀ a ∈ l, P s → Yields ok P (f s a)) :
    Yields ok P (l.foldlM f s) := by
  induction l generalizing s with
  | nil => exact hinit
  | cons a l ih =>
    rw [List.foldlM_cons]
    refine (hstep s a List.mem_cons_self hinit).bind fun s' _ hs' => ?_
    exact ih hs' fun s b hb => hstep s b (List.mem_cons_of_mem a hb)

/-- One fault of a list of computations is the fault of all. -/
theorem mapM_checked {α β ε : Type} {l : List α} {f : α → Except ε β} {p : α → Prop}
    [DecidablePred p] {g : α → β} {fault : ε}
    (h : ∀ a ∈ l, f a = if p a then .ok (g a) else .error fault) :
    l.mapM f = if ∀ a ∈ l, p a then .ok (l.map g) else .error fault := by
  induction l with
  | nil => rw [if_pos (by simp)]; rfl
  | cons a l ih =>
    rw [List.mapM_cons, h a List.mem_cons_self,
      ih fun b hb => h b (List.mem_cons_of_mem a hb)]
    by_cases ha : p a
    · rw [if_pos ha]
      by_cases hl : ∀ b ∈ l, p b
      · rw [if_pos hl, if_pos (List.forall_mem_cons.mpr ⟨ha, hl⟩)]
        rfl
      · rw [if_neg hl, if_neg fun hall => hl (List.forall_mem_cons.mp hall).2]
        rfl
    · rw [if_neg ha, if_neg fun hall => ha (List.forall_mem_cons.mp hall).1]
      rfl

/-! ### Numbers -/

/-- A number of a signed type of 32 bits. -/
def Int32Range (x : Int) : Prop := -2 ^ 31 ≤ x ∧ x < 2 ^ 31

instance (x : Int) : Decidable (Int32Range x) := inferInstanceAs (Decidable (_ ∧ _))

/-- A number of a signed type of 64 bits. -/
def Int64Range (x : Int) : Prop := -2 ^ 63 ≤ x ∧ x < 2 ^ 63

instance (x : Int) : Decidable (Int64Range x) := inferInstanceAs (Decidable (_ ∧ _))

/-- The result of an `int` operation. -/
def int32 (x : Int) : Option Int := if Int32Range x then some x else none

/-- The result of a `long long` operation. -/
def int64 (x : Int) : Option Int := if Int64Range x then some x else none

/-- A number of the type is the result itself. -/
theorem int32_of_range {x : Int} (h : Int32Range x) : int32 x = some x := if_pos h

/-- A number of the type is the result itself. -/
theorem int64_of_range {x : Int} (h : Int64Range x) : int64 x = some x := if_pos h

/-- An `int` operation is defined where its result is known to be in range. -/
theorem yields_int32 {ok : Prop} {x : Int} (h : ok → Int32Range x) :
    Yields ok (fun y => y = x ∧ Int32Range x) (int32 x) := by
  rw [int32]
  split
  · rename_i hx
    exact ⟨rfl, hx⟩
  · rename_i hx
    exact fun hok => hx (h hok)

/-! ### Arrays -/

/-- An array of this size. -/
structure Cells (α : Type) where
  size : Nat
  cell : Nat → α

namespace Cells

variable {α : Type}

/-- The element at an index. -/
def read (c : Cells α) (i : Int) : Option α :=
  if 0 ≤ i ∧ i < c.size then some (c.cell i.toNat) else none

/-- An assignment to the element at an index. -/
def write (c : Cells α) (i : Int) (x : α) : Option (Cells α) :=
  if 0 ≤ i ∧ i < c.size then some { c with cell := Function.update c.cell i.toNat x } else none

/-- A read below the size. -/
theorem read_of_lt {c : Cells α} {i : Nat} (h : i < c.size) : c.read i = some (c.cell i) := by
  rw [read, if_pos (by omega), Int.toNat_natCast]

/-- A write below the size. -/
theorem write_of_lt {c : Cells α} {i : Nat} {x : α} (h : i < c.size) :
    c.write i x = some { c with cell := Function.update c.cell i x } := by
  rw [write, if_pos (by omega), Int.toNat_natCast]

/-- A negative index is outside of every array. -/
theorem read_of_neg {c : Cells α} {i : Int} (h : i < 0) : c.read i = none := by
  rw [read, if_neg (by omega)]

end Cells

/-- An array with two indices. -/
structure Grid (α : Type) where
  rows : Nat
  columns : Nat
  cell : Nat → Nat → α

namespace Grid

variable {α : Type}

/-- The element at two indices. -/
def read (d : Grid α) (i j : Nat) : Option α :=
  if i < d.rows ∧ j < d.columns then some (d.cell i j) else none

/-- An assignment to the element at two indices. -/
def write (d : Grid α) (i j : Nat) (x : α) : Option (Grid α) :=
  if i < d.rows ∧ j < d.columns then
    some { d with cell := fun a b => if a = i ∧ b = j then x else d.cell a b }
  else none

/-- A read within the rows and columns. -/
theorem read_of_lt {d : Grid α} {i j : Nat} (hi : i < d.rows) (hj : j < d.columns) :
    d.read i j = some (d.cell i j) := if_pos ⟨hi, hj⟩

/-- The grid with one element changed. -/
structure Stored (d : Grid α) (i j : Nat) (x : α) (d' : Grid α) : Prop where
  rows : d'.rows = d.rows
  columns : d'.columns = d.columns
  here : d'.cell i j = x
  other : ∀ a b, ¬(a = i ∧ b = j) → d'.cell a b = d.cell a b

/-- A write within the rows and columns stores the value. -/
theorem write_of_lt {d : Grid α} {i j : Nat} {x : α} (hi : i < d.rows) (hj : j < d.columns) :
    ∃ d', d.write i j x = some d' ∧ d.Stored i j x d' :=
  ⟨_, if_pos ⟨hi, hj⟩, rfl, rfl, if_pos ⟨rfl, rfl⟩, fun _ _ h => if_neg h⟩

/-- A grid of `k + 1` rows and `l + 1` columns with the first column and the first row filled before
these indices. -/
structure Bordered (f g : Nat → α) (k l i j : Nat) (d : Grid α) : Prop where
  rows : d.rows = k + 1
  columns : d.columns = l + 1
  left : ∀ a, 1 ≤ a → a < i → d.cell a 0 = f a
  top : ∀ b < j, d.cell 0 b = g b

section
variable {f g : Nat → α} {k l i j : Nat} {d : Grid α}

/-- One more cell of the left column. -/
theorem Bordered.write_left (h : Bordered f g k l i 0 d) (hi : i < k + 1) :
    ∃ d', d.write i 0 (f i) = some d' ∧ Bordered f g k l (i + 1) 0 d' := by
  have hrows := h.rows
  have hcolumns := h.columns
  obtain ⟨d', hwrite, hstored⟩ :=
    write_of_lt (x := f i) (by omega : i < d.rows) (by omega : 0 < d.columns)
  refine ⟨d', hwrite, hstored.rows.trans hrows, hstored.columns.trans hcolumns, fun a ha hai => ?_,
    fun b hb => absurd hb (Nat.not_lt_zero b)⟩
  rcases Nat.lt_or_eq_of_le (Nat.le_of_lt_succ hai) with hlt | rfl
  · rw [hstored.other a 0 (by omega)]
    exact h.left a ha hlt
  · exact hstored.here

/-- One more cell of the top row. -/
theorem Bordered.write_top (h : Bordered f g k l i j d) (hj : j < l + 1) :
    ∃ d', d.write 0 j (g j) = some d' ∧ Bordered f g k l i (j + 1) d' := by
  have hrows := h.rows
  have hcolumns := h.columns
  obtain ⟨d', hwrite, hstored⟩ :=
    write_of_lt (x := g j) (by omega : 0 < d.rows) (by omega : j < d.columns)
  refine ⟨d', hwrite, hstored.rows.trans hrows, hstored.columns.trans hcolumns, fun a ha hai => ?_,
    fun b hb => ?_⟩
  · rw [hstored.other a 0 (by omega)]
    exact h.left a ha hai
  · rcases Nat.lt_or_eq_of_le (Nat.le_of_lt_succ hb) with hlt | rfl
    · rw [hstored.other 0 b (by omega)]
      exact h.top b hlt
    · exact hstored.here

/-- The two loops that fill the first column and the first row. -/
theorem forUpM_border (f g : Nat → α) (k l : Nat) (memory : Nat → Nat → α) {lo : Nat}
    (hlo : lo ≤ 1) :
    ∃ d d', forUpM lo (k + 1) (fun i (d : Grid α) => d.write i 0 (f i)) ⟨k + 1, l + 1, memory⟩
        = some d ∧
      forUpM 0 (l + 1) (fun j (d : Grid α) => d.write 0 j (g j)) d = some d' ∧
      Bordered f g k l (k + 1) (l + 1) d' := by
  have hstart : Bordered f g k l lo 0 ⟨k + 1, l + 1, memory⟩ :=
    ⟨rfl, rfl, fun _ _ _ => by omega, fun b hb => absurd hb (Nat.not_lt_zero b)⟩
  have hleft : ∃ d, forUpM lo (k + 1) (fun i (d : Grid α) => d.write i 0 (f i))
      ⟨k + 1, l + 1, memory⟩ = some d ∧ Bordered f g k l (k + 1) 0 d :=
    forUpM_induct (P := fun i => Bordered f g k l i 0) (by omega) hstart
      fun i d _ hi h => h.write_left hi
  obtain ⟨d, hleft, hd⟩ := hleft
  have htop : ∃ d', forUpM 0 (l + 1) (fun j (d : Grid α) => d.write 0 j (g j)) d = some d' ∧
      Bordered f g k l (k + 1) (l + 1) d' :=
    forUpM_induct (P := Bordered f g k l (k + 1)) (Nat.zero_le (l + 1)) hd
      fun j d _ hj h => h.write_top hj
  obtain ⟨d', htop, hd'⟩ := htop
  exact ⟨d, d', hleft, htop, hd'⟩

end

end Grid

end LearnGit.Lib
