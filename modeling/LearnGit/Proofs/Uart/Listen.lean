import LearnGit.Uart.Link.World

/-!
# `LearnGit.Proofs.Uart.Listen`: the sets that `link_listen` returns

`linkListen_contract_iff`: a call of `link_listen` that returns a number greater than 0 leaves in
each set the devices that are ready, and returns their number, if and only if every set it is given
is empty or meets its mark. A set that does not meet its mark is left as it was, and its devices look
ready where another set has a hit.

The marks are those of the pass that returns (`returnView`): the first one, if some set meets its
mark there, and else the one behind the wait.
-/

set_option autoImplicit false

namespace LearnGit.Proofs.Uart

open LearnGit.Uart.Link

/-! ### Statement -/

/-- The number of devices in a set; a NULL pointer is no set. -/
def setBits (devset : Option UInt16) : Nat :=
  match devset with
  | none => 0
  | some s => bitCount s

/-- Each set is replaced by its intersection with the mark in `w`, and `ret` is the number of
devices in the three of them. -/
structure Contract (sets sets' : DevSets) (w : World) (ret : Nat) : Prop where
  writes : sets'.w = sets.w.map (· &&& w.markW)
  reads : sets'.r = sets.r.map (· &&& w.markR)
  errors : sets'.e = sets.e.map (· &&& w.markE)
  total : ret = setBits sets'.w + setBits sets'.r + setBits sets'.e

/-- A set is NULL, or empty, or it meets the mark. -/
def EmptyOrMeets (devset : Option UInt16) (mark : UInt16) : Prop :=
  ∀ s, devset = some s → s = 0 ∨ s &&& mark ≠ 0

/-- A set meets the mark. -/
def meets (devset : Option UInt16) (mark : UInt16) : Bool :=
  match devset with
  | none => false
  | some s => s &&& mark != 0

/-- What the thread finds in the pass that returns. -/
def returnView (sets : DevSets) (v : ListenView) (vs : List ListenView) : Option ListenView :=
  if meets sets.w v.markW || meets sets.r v.markR || meets sets.e v.markE then some v
  else vs.find? fun u => !u.inListen

/-! ### One set -/

/-- Only an empty set has no bit to count. -/
theorem bitCount_eq_zero {s : UInt16} : bitCount s = 0 ↔ s = 0 := by
  constructor
  · intro h
    have hbits : ∀ i < 16, (s >>> UInt16.ofNat i) &&& 1 = 0 := by
      intro i hi
      rw [bitCount, List.length_eq_zero_iff, List.filter_eq_nil_iff] at h
      simpa using h i (List.mem_range.mpr hi)
    rw [← UInt16.toNat_inj]
    refine Nat.eq_of_testBit_eq fun i => ?_
    rw [UInt16.toNat_zero, Nat.zero_testBit]
    by_cases hi : i < 16
    · have hbit := congrArg UInt16.toNat (hbits i hi)
      rw [UInt16.toNat_and, UInt16.toNat_shiftRight, UInt16.toNat_ofNat',
        Nat.mod_eq_of_lt (by omega), Nat.mod_eq_of_lt (show i < 2 ^ 16 by omega)] at hbit
      rw [Nat.testBit, Nat.and_comm]
      simpa using hbit
    · have hle : 2 ^ 16 ≤ 2 ^ i := Nat.pow_le_pow_right (by decide) (by omega)
      exact Nat.testBit_lt_two_pow (Nat.lt_of_lt_of_le s.toNat_lt hle)
  · rintro rfl
    decide

/-- A check counts the devices in the intersection. -/
theorem listenCheck_count (devset : Option UInt16) (mark : UInt16) :
    (listenCheck devset mark).2 = setBits (devset.map (· &&& mark)) := by
  cases devset with
  | none => rfl
  | some s =>
    rw [listenCheck]
    split
    · rfl
    · rename_i hnone
      rw [Option.map_some, setBits, Decidable.not_not.mp hnone]
      exact (bitCount_eq_zero.mpr rfl).symm

/-- The check counts something where the set and the marks meet. -/
theorem listenCheck_count_ne_zero (devset : Option UInt16) (mark : UInt16) :
    (listenCheck devset mark).2 ≠ 0 ↔ meets devset mark := by
  rw [listenCheck_count]
  cases devset with
  | none => exact ⟨fun h => absurd rfl h, fun h => (nomatch h)⟩
  | some s =>
    rw [Option.map_some, setBits, meets, bne_iff_ne]
    exact not_congr bitCount_eq_zero

/-- A check replaces the set by the intersection unless it has devices of which none is marked. -/
theorem listenCheck_set (devset : Option UInt16) (mark : UInt16) :
    (listenCheck devset mark).1 = devset.map (· &&& mark) ↔ EmptyOrMeets devset mark := by
  cases devset with
  | none => exact ⟨fun _ s hs => (nomatch hs), fun _ => rfl⟩
  | some s =>
    rw [listenCheck, Option.map_some]
    split
    · rename_i hmeets
      refine ⟨fun _ t ht => ?_, fun _ => rfl⟩
      rw [← Option.some.inj ht]
      exact Or.inr hmeets
    · rename_i hnone
      have hzero : s &&& mark = 0 := Decidable.not_not.mp hnone
      constructor
      · intro h t ht
        rw [← Option.some.inj ht]
        exact Or.inl ((Option.some.inj h).trans hzero)
      · intro h
        rcases h s rfl with hempty | hmeets
        · rw [hempty, UInt16.zero_and]
        · exact absurd hzero hmeets

/-! ### A pass -/

/-- The marks in a world are those of a view. -/
def Sees (w : World) (u : ListenView) : Prop :=
  w.markW = u.markW ∧ w.markR = u.markR ∧ w.markE = u.markE

/-- Every set of a call is NULL, empty or meets its mark. -/
def AllMeet (sets : DevSets) (u : ListenView) : Prop :=
  EmptyOrMeets sets.w u.markW ∧ EmptyOrMeets sets.r u.markR ∧ EmptyOrMeets sets.e u.markE

/-- The pass that returns, where `w'` has its marks still. -/
theorem listenPass_contract_iff (sets : DevSets) {w w' : World} {u : ListenView} (h : Sees w u)
    (h' : Sees w' u) :
    Contract sets (listenPass sets w).1 w' (listenPass sets w).2 ↔ AllMeet sets u := by
  obtain ⟨hw, hr, he⟩ := h
  obtain ⟨hw', hr', he'⟩ := h'
  rw [AllMeet, ← listenCheck_set, ← listenCheck_set, ← listenCheck_set, ← hw, ← hr, ← he]
  rw [← hw] at hw'
  rw [← hr] at hr'
  rw [← he] at he'
  constructor
  · rintro ⟨hwrites, hreads, herrors, -⟩
    rw [hw'] at hwrites
    rw [hr'] at hreads
    rw [he'] at herrors
    exact ⟨hwrites, hreads, herrors⟩
  · rintro ⟨hwrites, hreads, herrors⟩
    refine ⟨by rw [hw']; exact hwrites, by rw [hr']; exact hreads, by rw [he']; exact herrors, ?_⟩
    show (listenCheck sets.w w.markW).2 + (listenCheck sets.r w.markR).2
      + (listenCheck sets.e w.markE).2 = setBits (listenCheck sets.w w.markW).1
        + setBits (listenCheck sets.r w.markR).1 + setBits (listenCheck sets.e w.markE).1
    rw [hwrites, hreads, herrors, listenCheck_count, listenCheck_count, listenCheck_count]

/-- A pass counts something where one of the three sets meets its marks. -/
theorem listenPass_ne_zero (sets : DevSets) {w : World} {u : ListenView} (h : Sees w u) :
    (listenPass sets w).2 ≠ 0 ↔
      (meets sets.w u.markW || meets sets.r u.markR || meets sets.e u.markE) := by
  obtain ⟨hw, hr, he⟩ := h
  rw [Bool.or_eq_true, Bool.or_eq_true, ← listenCheck_count_ne_zero, ← listenCheck_count_ne_zero,
    ← listenCheck_count_ne_zero, ← hw, ← hr, ← he]
  show (listenCheck sets.w w.markW).2 + (listenCheck sets.r w.markR).2
    + (listenCheck sets.e w.markE).2 ≠ 0 ↔ _
  omega

/-- A pass without a hit leaves the sets as they were. -/
theorem listenPass_sets {sets : DevSets} {w : World} (h : (listenPass sets w).2 = 0) :
    (listenPass sets w).1 = sets := by
  have hcheck : ∀ devset mark, (listenCheck devset mark).2 = 0 →
      (listenCheck devset mark).1 = devset := by
    intro devset mark hzero
    cases devset with
    | none => rfl
    | some s =>
      rw [listenCheck] at hzero ⊢
      split
      · rename_i hmeets
        rw [if_pos hmeets] at hzero
        exact absurd (bitCount_eq_zero.mp hzero) hmeets
      · rfl
  have hsum : (listenCheck sets.w w.markW).2 + (listenCheck sets.r w.markR).2
      + (listenCheck sets.e w.markE).2 = 0 := h
  show DevSets.mk (listenCheck sets.w w.markW).1 (listenCheck sets.r w.markR).1
    (listenCheck sets.e w.markE).1 = sets
  rw [hcheck _ _ (by omega), hcheck _ _ (by omega), hcheck _ _ (by omega)]

/-- Behind `lock_listen` the marks are those that the view has. -/
theorem sees_of_lockListen {w w' : World} {v : ListenView} (h : lockListen w v = some w') :
    Sees w' v ∧ w'.inListen = v.inListen := by
  rw [lockListen, Option.bind_eq_bind, Option.bind_eq_some_iff] at h
  obtain ⟨w₁, -, h⟩ := h
  rw [← Option.some.inj h]
  exact ⟨⟨rfl, rfl, rfl⟩, rfl⟩

/-- The wait ends with the first view in which `in_listen` is 0. -/
theorem sees_of_listenPoll {vs : List ListenView} {w w' : World} (h : listenPoll vs w = some w') :
    ∃ u, vs.find? (fun u => !u.inListen) = some u ∧ Sees w' u := by
  induction vs generalizing w with
  | nil => exact nomatch h
  | cons v vs ih =>
    rw [listenPoll, Option.bind_eq_bind, Option.bind_eq_some_iff] at h
    obtain ⟨w₁, hlock, h⟩ := h
    obtain ⟨hsees, hin⟩ := sees_of_lockListen hlock
    rw [hin] at h
    split at h
    · rename_i hwait
      rw [List.find?_cons_of_neg (by rw [hwait]; decide)]
      exact ih h
    · rename_i hdone
      rw [List.find?_cons_of_pos (by simpa using hdone), ← Option.some.inj h]
      exact ⟨v, rfl, hsees⟩

/-! ### The theorem -/

/-- A call that returns keeps the contract if and only if in the pass that returns every set that is
not NULL is empty or meets its mark. -/
theorem linkListen_contract_iff (w w' : World) (sets sets' : DevSets) (v : ListenView)
    (vs : List ListenView) (ret : Nat) (h : linkListen w sets v vs = some (w', sets', ret)) :
    Contract sets sets' w' ret ↔ ∃ u, returnView sets v vs = some u ∧ AllMeet sets u := by
  have hview : ∀ u, returnView sets v vs = some u →
      ((∃ u, returnView sets v vs = some u ∧ AllMeet sets u) ↔ AllMeet sets u) := by
    intro u hu
    rw [hu]
    constructor
    · rintro ⟨u', hu', hall⟩
      rw [Option.some.inj hu']
      exact hall
    · intro hall
      exact ⟨u, rfl, hall⟩
  rw [linkListen, Option.bind_eq_bind, Option.bind_eq_some_iff] at h
  obtain ⟨w₁, hlock, h⟩ := h
  obtain ⟨hsees, -⟩ := sees_of_lockListen hlock
  dsimp only at h
  split at h
  · rename_i hready
    rw [hview v (if_pos ((listenPass_ne_zero sets hsees).mp hready))]
    obtain ⟨hw', hresult⟩ := Prod.mk.inj (Option.some.inj h)
    obtain ⟨hsets', hret⟩ := Prod.mk.inj hresult
    rw [← hw', ← hsets', ← hret]
    exact listenPass_contract_iff sets hsees hsees
  · -- nothing is ready, and the sets are as they were in the second pass
    rename_i hnone
    have hnone' : (listenPass sets w₁).2 = 0 := Decidable.not_not.mp hnone
    rw [Option.bind_eq_some_iff] at h
    obtain ⟨w₂, hpoll, h⟩ := h
    obtain ⟨u, hu, hsees₂⟩ := sees_of_listenPoll hpoll
    have hmiss : ¬ (meets sets.w v.markW || meets sets.r v.markR || meets sets.e v.markE) := by
      rw [← listenPass_ne_zero sets hsees]
      exact hnone
    rw [hview u ((if_neg hmiss).trans hu)]
    rw [listenPass_sets hnone'] at h
    obtain ⟨hw', hresult⟩ := Prod.mk.inj (Option.some.inj h)
    obtain ⟨hsets', hret⟩ := Prod.mk.inj hresult
    rw [← hw', ← hsets', ← hret]
    exact listenPass_contract_iff sets hsees₂ hsees₂

/-- A call that waits for device 1 in both of its sets. -/
theorem linkListen_contract_iff_waits : ∃ w' sets' ret,
    linkListen World.init ⟨some 0x2, some 0x6, none⟩ ⟨0, 0, 0, false⟩
        [⟨0, 0x2, 0, true⟩, ⟨0x2, 0x2, 0, false⟩] = some (w', sets', ret) ∧ 0 < ret ∧
      Contract ⟨some 0x2, some 0x6, none⟩ sets' w' ret := by
  refine ⟨_, _, _, rfl, by decide, (linkListen_contract_iff World.init _ _ _ ⟨0, 0, 0, false⟩
    [⟨0, 0x2, 0, true⟩, ⟨0x2, 0x2, 0, false⟩] _ rfl).mpr ?_⟩
  refine ⟨⟨0x2, 0x2, 0, false⟩, by decide, ?_, ?_, ?_⟩
  · intro s hs
    rw [← Option.some.inj hs]
    decide
  · intro s hs
    rw [← Option.some.inj hs]
    decide
  · intro s hs
    exact nomatch hs

/-- Device 1 is ready to be read and is returned as one that failed, too. -/
theorem linkListen_leaves_set : ∃ w' sets' ret,
    linkListen World.init ⟨some 0x2, some 0x2, none⟩ ⟨0, 0x2, 0, false⟩ [] = some (w', sets', ret) ∧
      0 < ret ∧ ¬ Contract ⟨some 0x2, some 0x2, none⟩ sets' w' ret := by
  refine ⟨_, _, _, rfl, by decide, ?_⟩
  intro hcontract
  exact absurd hcontract.writes (by decide)

end LearnGit.Proofs.Uart
