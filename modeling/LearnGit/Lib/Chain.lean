import Mathlib.Data.List.Induction
import Mathlib.Data.List.Nodup
import Mathlib.Tactic.Common

/-!
# `LearnGit.Lib.Chain`: linked lists over a heap of nodes

A heap is seen through two partial maps: `succ p` is the forward pointer stored at `p` and
`pred p` the backward pointer, both `none` where no node lives. `Seg succ h ps e` says that
the forward pointers lead from `h` through exactly the nodes `ps` to `e`. `Back pred b ps`
says that the backward pointers of `ps` lead back along the list to `b`.

`DList` is a doubly linked list with a header and a tail. `DList.snoc` and `DList.erase` say
which stores append a node and take one out.
-/

set_option autoImplicit false

namespace LearnGit.Lib

variable {P : Type} {succ succ' pred pred' : P → Option (Option P)}

/-- The forward pointers lead from `h` through `ps` to `e`. -/
def Seg (succ : P → Option (Option P)) : Option P → List P → Option P → Prop
  | h, [], e => h = e
  | h, p :: ps, e => h = some p ∧ ∃ q, succ p = some q ∧ Seg succ q ps e

/-- The backward pointers of `ps` lead back to `b`. -/
def Back (pred : P → Option (Option P)) : Option P → List P → Prop
  | _, [] => True
  | b, p :: ps => pred p = some b ∧ Back pred (some p) ps

/-! ### Segments -/

/-- A chain is cut at any of its nodes. -/
theorem seg_append {h e : Option P} {ps qs : List P} :
    Seg succ h (ps ++ qs) e ↔ ∃ m, Seg succ h ps m ∧ Seg succ m qs e := by
  induction ps generalizing h with
  | nil => simp [Seg]
  | cons p ps ih =>
    simp only [List.cons_append, Seg, ih]
    constructor
    · rintro ⟨rfl, q, hq, m, hps, hqs⟩
      exact ⟨m, ⟨rfl, q, hq, hps⟩, hqs⟩
    · rintro ⟨m, ⟨rfl, q, hq, hps⟩, hqs⟩
      exact ⟨rfl, q, hq, m, hps, hqs⟩

/-- A chain starts at its first node, or at its end when it has none. -/
theorem Seg.head_eq {h e : Option P} {ps : List P} (hs : Seg succ h ps e) :
    h = ps.head?.or e := by
  cases ps with
  | nil => simpa [Seg] using hs
  | cons p ps => simpa [Seg] using hs.1

/-- A segment reads only the pointers of its own nodes. -/
theorem Seg.congr {h e : Option P} {ps : List P} (hs : Seg succ h ps e)
    (heq : ∀ p ∈ ps, succ' p = succ p) : Seg succ' h ps e := by
  induction ps generalizing h with
  | nil => exact hs
  | cons p ps ih =>
    obtain ⟨hp, q, hq, hrest⟩ := hs
    refine ⟨hp, q, ?_, ih hrest fun p' hp' => heq p' (by simp [hp'])⟩
    rw [heq p (by simp), hq]

/-- Every node of a segment is on the heap. -/
theorem Seg.succ_isSome {h e : Option P} {ps : List P} (hs : Seg succ h ps e) :
    ∀ p ∈ ps, (succ p).isSome := by
  induction ps generalizing h with
  | nil => simp
  | cons p ps ih =>
    obtain ⟨_, q, hq, hrest⟩ := hs
    intro p' hp'
    rcases List.mem_cons.mp hp' with rfl | hp'
    · simp [hq]
    · exact ih hrest p' hp'

/-- A list that ends is determined by where it starts. -/
theorem Seg.unique {h : Option P} {ps qs : List P} (hp : Seg succ h ps none)
    (hq : Seg succ h qs none) : ps = qs := by
  induction ps generalizing h qs with
  | nil =>
    have hh : h = none := hp
    cases qs with
    | nil => rfl
    | cons q qs => simp [Seg, hh] at hq
  | cons p ps ih =>
    obtain ⟨rfl, r, hr, hrest⟩ := hp
    cases qs with
    | nil => simp [Seg] at hq
    | cons q qs =>
      obtain ⟨hpq, r', hr', hrest'⟩ := hq
      obtain rfl : p = q := Option.some.inj hpq
      obtain rfl : r = r' := Option.some.inj (hr.symm.trans hr')
      rw [ih hrest hrest']

/-- A list that ends visits no node twice: from a node on, the rest is determined, so a
second visit would make the rest its own proper suffix. -/
theorem Seg.nodup {h : Option P} {ps : List P} (hs : Seg succ h ps none) : ps.Nodup := by
  induction ps generalizing h with
  | nil => exact List.nodup_nil
  | cons p ps ih =>
    have hwhole : Seg succ (some p) (p :: ps) none := by
      rw [← hs.1]
      exact hs
    obtain ⟨_, q, _, hrest⟩ := hs
    refine List.nodup_cons.mpr ⟨fun hmem => ?_, ih hrest⟩
    obtain ⟨as, bs, hsplit⟩ := List.append_of_mem hmem
    rw [hsplit] at hrest
    obtain ⟨m, _, htail⟩ := seg_append.mp hrest
    obtain rfl : m = some p := htail.1
    -- Both lists start at `p`, and one of them is longer.
    have hlen := congrArg List.length (hwhole.unique htail)
    rw [hsplit] at hlen
    simp at hlen
    omega

/-- Redirecting the last node of a segment redirects the segment. -/
theorem Seg.relink {h e e' : Option P} {as : List P} {a : P} (hs : Seg succ h (as ++ [a]) e)
    (heq : ∀ q ∈ as, succ' q = succ q) (ha : succ' a = some e') :
    Seg succ' h (as ++ [a]) e' := by
  obtain ⟨m, hpre, hlast⟩ := seg_append.mp hs
  refine seg_append.mpr ⟨m, hpre.congr heq, hlast.1, e', ha, rfl⟩

/-- The stores that append the node `p` to a list: its last node points forward to `p`. -/
theorem Seg.snoc {header tail : Option P} {ps : List P} {p : P} (hs : Seg succ header ps none)
    (hlast : tail = ps.getLast?)
    (hsucc : ∀ q ∈ ps, tail ≠ some q → succ' q = succ q)
    (htail : ∀ t, tail = some t → succ' t = some (some p))
    (hp : succ' p = some none) : Seg succ' (header.or (some p)) (ps ++ [p]) none := by
  have hnodup := hs.nodup
  have hhead : header = ps.head? := by simpa using hs.head_eq
  refine seg_append.mpr ⟨some p, ?_, rfl, none, hp, rfl⟩
  cases ps using List.reverseRecOn with
  | nil => simp [hhead, Seg]
  | append_singleton as a =>
    have ha : tail = some a := by simp [hlast]
    have hor : header.or (some p) = header := by rw [hhead]; simp
    rw [hor]
    refine hs.relink (fun q hq => ?_) (htail a ha)
    refine hsucc q (by simp [hq]) fun hqa => ?_
    have hqa' : a = q := Option.some.inj (ha.symm.trans hqa)
    have hdisj := List.disjoint_of_nodup_append hnodup
    exact hdisj hq (by simp [hqa'])

/-! ### Backward pointers -/

/-- The links back are cut at any of the nodes. -/
theorem back_append {b : Option P} {ps qs : List P} :
    Back pred b (ps ++ qs) ↔ Back pred b ps ∧ Back pred (ps.getLast?.or b) qs := by
  induction ps generalizing b with
  | nil => simp [Back]
  | cons p ps ih =>
    simp only [List.cons_append, Back, ih, and_assoc]
    cases ps with
    | nil => simp [Back]
    | cons q ps => simp [List.getLast?_cons]

/-- The links back depend on the nodes of the chain only. -/
theorem Back.congr {b : Option P} {ps : List P} (hb : Back pred b ps)
    (heq : ∀ p ∈ ps, pred' p = pred p) : Back pred' b ps := by
  induction ps generalizing b with
  | nil => trivial
  | cons p ps ih =>
    refine ⟨?_, ih hb.2 fun p' hp' => heq p' (by simp [hp'])⟩
    rw [heq p (by simp), hb.1]

/-! ### Doubly linked lists -/

/-- `header`, `tail` and the pointers describe one doubly linked list through `ps`. -/
structure DList (succ pred : P → Option (Option P)) (header tail : Option P) (ps : List P) :
    Prop where
  chain : Seg succ header ps none
  back : Back pred none ps
  last : tail = ps.getLast?

namespace DList

variable {header tail : Option P} {ps as bs : List P} {p : P}

/-- The header is the first node. -/
theorem head_eq (h : DList succ pred header tail ps) : header = ps.head? := by
  simpa using h.chain.head_eq

/-- The stores that append the node `p`: the last node points forward to `p`, and `p` points
back to it. -/
theorem snoc (h : DList succ pred header tail ps)
    (hsucc : ∀ q ∈ ps, tail ≠ some q → succ' q = succ q)
    (htail : ∀ t, tail = some t → succ' t = some (some p))
    (hp : succ' p = some none)
    (hpred : ∀ q ∈ ps, pred' q = pred q) (hback : pred' p = some tail) :
    DList succ' pred' (header.or (some p)) (some p) (ps ++ [p]) := by
  refine ⟨h.chain.snoc h.last hsucc htail hp, ?_, by simp⟩
  refine back_append.mpr ⟨h.back.congr hpred, ?_, trivial⟩
  rw [hback, h.last]
  cases ps.getLast? <;> rfl

/-- The stores that take the node `p` out: its neighbours point past it. -/
theorem erase (h : DList succ pred header tail (as ++ p :: bs))
    (succ' pred' : P → Option (Option P))
    (hsucc : ∀ q ∈ as ++ bs, as.getLast? ≠ some q → succ' q = succ q)
    (hlast : ∀ a, as.getLast? = some a → succ' a = some bs.head?)
    (hpred : ∀ q ∈ as ++ bs, bs.head? ≠ some q → pred' q = pred q)
    (hnext : ∀ b, bs.head? = some b → pred' b = some as.getLast?) :
    DList succ' pred' (as ++ bs).head? (as ++ bs).getLast? (as ++ bs) := by
  have hnodup := h.chain.nodup
  have hdisj := List.disjoint_of_nodup_append hnodup
  obtain ⟨m, hfront, hrear⟩ := seg_append.mp h.chain
  obtain ⟨rfl, r, _, hbs⟩ := hrear
  have hr : r = bs.head? := by simpa using hbs.head_eq
  obtain ⟨hbackFront, _, hbackRear⟩ := back_append.mp h.back
  -- The rear part keeps its forward pointers: the redirected node is in the front part.
  have hbs' : Seg succ' bs.head? bs none := by
    rw [← hr]
    refine hbs.congr fun q hq => hsucc q (by simp [hq]) fun hqa => ?_
    exact hdisj (List.mem_of_getLast? hqa) (by simp [hq])
  refine ⟨?_, ?_, rfl⟩
  · cases as using List.reverseRecOn with
    | nil => simpa using hbs'
    | append_singleton as a =>
      have hheader : (as ++ [a] ++ bs).head? = header := by
        rw [hfront.head_eq]
        cases as <;> simp
      rw [hheader]
      refine seg_append.mpr ⟨bs.head?, ?_, hbs'⟩
      -- The last node of the front part is redirected past `p`.
      refine hfront.relink (fun q hq => ?_) (hlast a (by simp))
      refine hsucc q (by simp [hq]) fun hqa => ?_
      have hqa' : a = q := by simpa using hqa
      have hfn : (as ++ [a]).Nodup := (List.nodup_append.mp hnodup).1
      exact List.disjoint_of_nodup_append hfn hq (by simp [hqa'])
  · refine back_append.mpr ⟨hbackFront.congr fun q hq => ?_, ?_⟩
    · refine hpred q (by simp [hq]) fun hqb => ?_
      exact hdisj hq (by simp [List.mem_of_head? hqb])
    · cases bs with
      | nil => trivial
      | cons b bs =>
        have hbn : b ∉ bs := by
          have := (List.nodup_append.mp hnodup).2.1
          simp only [List.nodup_cons, List.mem_cons] at this
          exact this.2.1
        refine ⟨by simpa using hnext b rfl, hbackRear.2.congr fun q hq => ?_⟩
        refine hpred q (by simp [hq]) fun hqb => ?_
        have hqb' : b = q := by simpa using hqb
        exact hbn (hqb' ▸ hq)

end DList

end LearnGit.Lib
