import Mathlib.Data.List.Induction
import Mathlib.Tactic.Common

/-!
# `LearnGit.Lib.Machine`: machines with a step function, and their runs

A machine has an initial state and a step function that is `some` when the event can happen
in the state. `Machine.Run ok es s` is a run from the initial state through the events `es`
to `s`, along which the condition `ok` holds of the state and the event before each step.
`Run.invariant` is the induction rule: what holds at the start and is kept by every step
that meets `ok` holds at the end of every such run.
-/

set_option autoImplicit false

namespace LearnGit.Lib

/-- An initial state and a step function. `step s e` is `none` when `e` cannot happen
in `s`. -/
structure Machine (S E : Type) where
  init : S
  step : S → E → Option S

namespace Machine

variable {S E : Type} (m : Machine S E)

/-- A run from the initial state, with `ok` before each of its steps. -/
inductive Run (ok : S → E → Prop) : List E → S → Prop where
  | init : Run ok [] m.init
  | snoc {es : List E} {s s' : S} {e : E} :
      Run ok es s → ok s e → m.step s e = some s' → Run ok (es ++ [e]) s'

/-- The state the events lead to from `s`, when each of them can happen. -/
def execFrom (s : S) (es : List E) : Option S := es.foldlM m.step s

/-- The state the events lead to from the initial state. -/
def exec (es : List E) : Option S := m.execFrom m.init es

variable {m}

/-- Without an event the state stays. -/
@[simp] theorem execFrom_nil (s : S) : m.execFrom s [] = some s := rfl

/-- The first event of a run. -/
@[simp] theorem execFrom_cons (s : S) (e : E) (es : List E) :
    m.execFrom s (e :: es) = (m.step s e).bind fun t => m.execFrom t es := rfl

/-- One run after the other. -/
theorem execFrom_append (s : S) (es es' : List E) :
    m.execFrom s (es ++ es') = (m.execFrom s es).bind fun t => m.execFrom t es' := by
  simp only [execFrom, List.foldlM_append]
  rfl

/-- The first events of a possible sequence are one. -/
theorem exec_of_isPrefix {front es : List E} {s : S} (hfront : front <+: es)
    (h : m.exec es = some s) : ∃ t, m.exec front = some t := by
  obtain ⟨rest, rfl⟩ := hfront
  rw [exec, execFrom_append] at h
  obtain ⟨t, ht, _⟩ := Option.bind_eq_some_iff.mp h
  exact ⟨t, ht⟩

/-- The last event of a possible sequence happens in the state the others lead to. -/
theorem exec_snoc {es : List E} {e : E} {s : S} :
    m.exec (es ++ [e]) = some s ↔ ∃ t, m.exec es = some t ∧ m.step t e = some s := by
  unfold exec
  rw [execFrom_append, Option.bind_eq_some_iff]
  simp

/-- The invariant rule. -/
theorem Run.invariant {ok : S → E → Prop} {I : S → Prop} (hinit : I m.init)
    (hstep : ∀ s e s', ok s e → I s → m.step s e = some s' → I s')
    {es : List E} {s : S} (h : m.Run ok es s) : I s := by
  induction h with
  | init => exact hinit
  | snoc _ hok hs ih => exact hstep _ _ _ hok ih hs

/-- The events of a run lead to its end state. -/
theorem Run.exec_eq {ok : S → E → Prop} {es : List E} {s : S} (h : m.Run ok es s) :
    m.exec es = some s := by
  induction h with
  | init => rfl
  | snoc _ _ hs ih => exact exec_snoc.mpr ⟨_, ih, hs⟩

/-- Events that lead to a state are a run without a condition. -/
theorem Run.of_exec {es : List E} {s : S} (h : m.exec es = some s) :
    m.Run (fun _ _ => True) es s := by
  induction es using List.reverseRecOn generalizing s with
  | nil =>
    have hs : m.init = s := by simpa [exec] using h
    rw [← hs]
    exact Run.init
  | append_singleton es e ih =>
    obtain ⟨t, hpre, hlast⟩ := exec_snoc.mp h
    exact Run.snoc (ih hpre) trivial hlast

variable (m) in
/-- The state the events lead to when `ok` holds before each of them. -/
def execOk (ok : S → E → Prop) [∀ s e, Decidable (ok s e)] (es : List E) : Option S :=
  es.foldlM (fun s e => if ok s e then m.step s e else none) m.init

/-- A run with a decidable condition can be found by evaluation. -/
theorem Run.of_execOk {ok : S → E → Prop} [∀ s e, Decidable (ok s e)] {es : List E} {s : S}
    (h : m.execOk ok es = some s) : m.Run ok es s := by
  induction es using List.reverseRecOn generalizing s with
  | nil =>
    have hs : m.init = s := by simpa [execOk] using h
    rw [← hs]
    exact Run.init
  | append_singleton es e ih =>
    rw [execOk, List.foldlM_append] at h
    obtain ⟨t, hpre, hlast⟩ := Option.bind_eq_some_iff.mp h
    rw [List.foldlM_cons] at hlast
    obtain ⟨u, hstep, hend⟩ := Option.bind_eq_some_iff.mp hlast
    have hok : ok t e := by
      by_contra hnot
      rw [if_neg hnot] at hstep
      exact nomatch hstep
    rw [if_pos hok] at hstep
    rw [← Option.some.inj hend]
    exact Run.snoc (ih hpre) hok hstep

variable (m) in
/-- `P` holds in every state the events pass through, the first and the last included. -/
def Always (P : S → Prop) (es : List E) : Prop :=
  ∀ pre, pre <+: es → ∀ s, m.exec pre = some s → P s

/-- Where `ok` says exactly when a step keeps `P`, the possible sequences of events along which
`P` always holds are the runs with `ok`. `I` is what else the steps keep as long as `P`
holds. -/
theorem always_iff_run {P I : S → Prop} {ok : S → E → Prop} (hinit : P m.init)
    (hinv : I m.init)
    (hstep : ∀ s e s', I s → P s → m.step s e = some s' →
      (P s' ↔ ok s e) ∧ (ok s e → I s'))
    {es : List E} {s : S} (h : m.exec es = some s) : m.Always P es ↔ m.Run ok es s := by
  have hrunInv : ∀ {es : List E} {s : S}, m.Run ok es s → I s ∧ P s := by
    intro es s hrun
    refine hrun.invariant (I := fun s => I s ∧ P s) ⟨hinv, hinit⟩ fun t e t' hok ht hs => ?_
    obtain ⟨hP, hI⟩ := hstep t e t' ht.1 ht.2 hs
    exact ⟨hI hok, hP.mpr hok⟩
  constructor
  · intro hall
    induction es using List.reverseRecOn generalizing s with
    | nil =>
      have hs : m.init = s := by simpa [exec] using h
      rw [← hs]
      exact Run.init
    | append_singleton es e ih =>
      obtain ⟨t, hpre, hlast⟩ := exec_snoc.mp h
      have hprev := ih hpre fun pre hp u hu => hall pre (hp.trans (es.prefix_append [e])) u hu
      obtain ⟨hI, hP⟩ := hrunInv hprev
      have hs : P s := hall (es ++ [e]) List.prefix_rfl s h
      exact Run.snoc hprev ((hstep t e s hI hP hlast).1.mp hs) hlast
  · intro hrun
    -- Induction on the run: a shorter prefix is one of the run before its last step.
    induction hrun with
    | init =>
      intro pre hp u hu
      rw [List.prefix_nil.mp hp] at hu
      have hs : m.init = u := by simpa [exec] using hu
      rw [← hs]
      exact hinit
    | snoc hrun hok hs ih =>
      intro pre hp u hu
      rcases List.prefix_concat_iff.mp hp with rfl | hp
      · rw [← Option.some.inj (h.symm.trans hu)]
        exact (hrunInv (hrun.snoc hok hs)).2
      · exact ih hrun.exec_eq pre hp u hu

end Machine

end LearnGit.Lib
