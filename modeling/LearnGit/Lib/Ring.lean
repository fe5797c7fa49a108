import Mathlib.Logic.Function.Basic
import Mathlib.Tactic.Common

/-!
# `LearnGit.Lib.Ring`: ring buffers with a read place and a write place

`Ring cap buff rd wr q`: the slots from `rd` up to `wr`, round the end of the buffer, hold the
items of `q`. One slot stays free, so that the two places are equal only for the empty ring.
-/

set_option autoImplicit false

namespace LearnGit.Lib

variable {α : Type} {cap rd wr : Nat} {buff : Nat → α} {q : List α} {x : α}

/-- The ring holds the items of `q`, the oldest at `rd`. -/
structure Ring (cap : Nat) (buff : Nat → α) (rd wr : Nat) (q : List α) : Prop where
  room : q.length < cap
  read_lt : rd < cap
  write_eq : wr = (rd + q.length) % cap
  slot : ∀ k x, q[k]? = some x → buff ((rd + k) % cap) = x

/-- A place is round the end at most once. -/
theorem ring_index {k : Nat} (hrd : rd < cap) (hk : k ≤ cap) :
    (rd + k) % cap = if rd + k < cap then rd + k else rd + k - cap := by
  split
  · rename_i hlt
    exact Nat.mod_eq_of_lt hlt
  · rename_i hge
    rw [Nat.mod_eq_sub_mod (by omega), Nat.mod_eq_of_lt (by omega)]

namespace Ring

/-- An empty ring, at any place. -/
theorem nil (hcap : rd < cap) : Ring cap buff rd rd [] where
  room := by rw [List.length_nil]; omega
  read_lt := hcap
  write_eq := (Nat.mod_eq_of_lt hcap).symm
  slot := by
    intro k x h
    rw [List.getElem?_nil] at h
    exact nomatch h

/-- The two places are equal exactly when the ring is empty. -/
theorem eq_iff (h : Ring cap buff rd wr q) : rd = wr ↔ q = [] := by
  have hroom := h.room
  have hrd := h.read_lt
  have hwr := h.write_eq
  rw [ring_index hrd (Nat.le_of_lt hroom)] at hwr
  rw [← List.length_eq_zero_iff]
  split at hwr
  · omega
  · omega

/-- The place after `wr` is `rd` exactly when one slot is free. -/
theorem full_iff (h : Ring cap buff rd wr q) : (wr + 1) % cap = rd ↔ q.length + 1 = cap := by
  have hroom := h.room
  have hrd := h.read_lt
  have hwr := h.write_eq
  rw [hwr, Nat.mod_add_mod, Nat.add_assoc, ring_index hrd (by omega)]
  split
  · omega
  · omega

/-- An element behind the others, while a cell stays free. -/
theorem push (h : Ring cap buff rd wr q) (hfree : q.length + 1 < cap) (x : α) :
    Ring cap (Function.update buff wr x) rd ((wr + 1) % cap) (q ++ [x]) where
  room := by rwa [List.length_append]
  read_lt := h.read_lt
  write_eq := by
    rw [h.write_eq, Nat.mod_add_mod, List.length_append, List.length_singleton, Nat.add_assoc]
  slot := by
    intro k y hk
    have hrd := h.read_lt
    have hklt : k < (q ++ [x]).length := (List.getElem?_eq_some_iff.mp hk).1
    rw [List.length_append, List.length_singleton] at hklt
    by_cases hlast : k = q.length
    · rw [hlast, List.getElem?_concat_length] at hk
      rw [hlast, ← h.write_eq, Function.update_self]
      exact Option.some.inj hk
    · have hne : (rd + k) % cap ≠ wr := by
        rw [h.write_eq, ring_index hrd (by omega), ring_index hrd (by omega)]
        split <;> split <;> omega
      rw [List.getElem?_append_left (by omega)] at hk
      rw [Function.update_of_ne hne]
      exact h.slot k y hk

/-- The cell at `rd` has the first element. -/
theorem front (h : Ring cap buff rd wr (x :: q)) : buff rd = x := by
  have hslot := h.slot 0 x rfl
  rwa [Nat.add_zero, Nat.mod_eq_of_lt h.read_lt] at hslot

/-- The first element is taken. -/
theorem pop (h : Ring cap buff rd wr (x :: q)) : Ring cap buff ((rd + 1) % cap) wr q where
  room := by
    have := h.room
    rw [List.length_cons] at this
    omega
  read_lt := Nat.mod_lt _ (by have := h.read_lt; omega)
  write_eq := by
    rw [h.write_eq, Nat.mod_add_mod, List.length_cons, Nat.add_assoc, Nat.add_comm 1]
  slot := by
    intro k y hk
    rw [Nat.mod_add_mod, Nat.add_assoc, Nat.add_comm 1]
    exact h.slot (k + 1) y hk

end Ring

end LearnGit.Lib
