import Mathlib

/-!
# `LearnGit.Lib.Blocks`: a stream that is taken in blocks

A consumer that is given one element after another, keeps them until it has `n`, and takes a whole
block then. `absorb_eq_chain` says that it has taken the blocks of what it was given, and keeps
what is behind the last of them.
-/

set_option autoImplicit false

namespace LearnGit.Lib

variable {α σ : Type} {n : Nat} {f : σ → List α → σ}

/-- One more element: the open block is taken when it is full. -/
def feed (n : Nat) (f : σ → List α → σ) (s : σ × List α) (a : α) : σ × List α :=
  if s.2.length + 1 = n then (f s.1 (s.2 ++ [a]), []) else (s.1, s.2 ++ [a])

/-- The elements of a list, one after another. -/
def absorb (n : Nat) (f : σ → List α → σ) (s : σ × List α) (l : List α) : σ × List α :=
  l.foldl (feed n f) s

/-- The first `k` blocks of a list. -/
def chain (n : Nat) (f : σ → List α → σ) (s : σ) (l : List α) : Nat → σ
  | 0 => s
  | k + 1 => f (chain n f s l k) ((l.drop (n * k)).take n)

/-- What is fed in two pieces is fed as a whole. -/
theorem absorb_append (s : σ × List α) (l l' : List α) :
    absorb n f s (l ++ l') = absorb n f (absorb n f s l) l' :=
  List.foldl_append

/-- The last byte of a piece. -/
theorem absorb_snoc (s : σ × List α) (l : List α) (a : α) :
    absorb n f s (l ++ [a]) = feed n f (absorb n f s l) a :=
  absorb_append s l [a]

/-- Whole blocks do not see what is behind them. -/
theorem chain_append (s : σ) (l l' : List α) {k : Nat} (h : n * k ≤ l.length) :
    chain n f s (l ++ l') k = chain n f s l k := by
  induction k with
  | zero => rfl
  | succ k ih =>
    rw [Nat.mul_succ] at h
    rw [chain, chain, ih (by omega), List.drop_append_of_le_length (by omega),
      List.take_append_of_le_length (by rw [List.length_drop]; omega)]

/-- The blocks of a list, and what is behind the last of them. -/
theorem absorb_eq_chain (hn : 0 < n) (s : σ) (l : List α) :
    absorb n f (s, []) l = (chain n f s l (l.length / n), l.drop (n * (l.length / n))) := by
  induction l using List.reverseRecOn with
  | nil => simp [absorb, chain]
  | append_singleton l a ih =>
    have hle : n * (l.length / n) ≤ l.length := Nat.mul_div_le _ _
    have hmod : l.length - n * (l.length / n) = l.length % n := by
      have := Nat.div_add_mod l.length n
      omega
    rw [absorb_snoc, ih, feed, List.length_drop, hmod, List.length_append, List.length_singleton]
    have hblock : (l ++ [a]).drop (n * (l.length / n)) = l.drop (n * (l.length / n)) ++ [a] :=
      List.drop_append_of_le_length hle
    split
    · rename_i hfull
      have hlen : l.length + 1 = n * (l.length / n + 1) := by
        rw [Nat.mul_succ]
        omega
      have hdiv : (l.length + 1) / n = l.length / n + 1 := Nat.div_eq_of_eq_mul_right hn hlen
      have hnil : (l ++ [a]).drop (n * (l.length / n + 1)) = [] :=
        List.drop_eq_nil_of_le (by simp; omega)
      rw [hdiv, hnil, chain, chain_append s l [a] hle, hblock, List.take_of_length_le]
      rw [List.length_append, List.length_drop, List.length_singleton]
      omega
    · rename_i hopen
      have hlt : l.length % n < n := Nat.mod_lt _ hn
      have hdiv : (l.length + 1) / n = l.length / n := by
        refine Nat.div_eq_of_lt_le ?_ ?_
        · rw [Nat.mul_comm]
          omega
        · rw [Nat.mul_comm, Nat.mul_succ]
          omega
      rw [hdiv, chain_append s l [a] hle, hblock]

/-- The blocks that have been taken. -/
theorem absorb_fst (hn : 0 < n) (s : σ) (l : List α) :
    (absorb n f (s, []) l).1 = chain n f s l (l.length / n) := by
  rw [absorb_eq_chain hn]

/-- The bytes behind the last whole block are kept. -/
theorem absorb_snd_length (hn : 0 < n) (s : σ) (l : List α) :
    (absorb n f (s, []) l).2.length = l.length % n := by
  rw [absorb_eq_chain hn, List.length_drop]
  have := Nat.div_add_mod l.length n
  omega

end LearnGit.Lib
