import LearnGit.Lib.Tokens
import LearnGit.Proofs.Uart.Images
import LearnGit.Uart.App.StaleImages

/-!
# `LearnGit.Proofs.Uart.StaleImages`: which files go when an image is asked for

`images_remove_only_stale_iff`: the image is asked for, the search for the underscore stays inside
the name, and only an entry that shares the part in front of it is removed, exactly where the name
fits the buffer of `req_image`, has an underscore and the next entry of the directory shares that
part. The comparison is the wrong way round: another entry is removed, and an old version stays. A
name of 127 bytes does not fit, and without an underscore the search stores in front of the name.
-/

set_option autoImplicit false

namespace LearnGit.Proofs.Uart

open LearnGit.Lib
open LearnGit.Uart.Link (Byte)
open LearnGit.Uart.App

/-! ### Statement -/

/-- The name of an image in `image_name`. -/
structure MissingName where
  bytes : List Byte
  pos : 1 ≤ bytes.length
  short : bytes.length ≤ MAX_NAME_LENGTH - 1
  noZero : ∀ c ∈ bytes, c ≠ 0

/-- The part of a name in front of its last underscore. -/
def stem (name : List Byte) : List Byte := (name.rdropWhile (· ≠ UNDERSCORE)).dropLast

/-- What is expected where an image is asked for, and `dp` is what is left of the directory: the code
stores inside of its arrays, it computes indices of `image_name` only, and these calls of `unlink`
are for entries that share the part of the name, and are none where it has no underscore. -/
structure RemovesOnlyStale (name : MissingName) (flag : Byte) (dp : List Name) : Prop where
  inside : ∀ i ∈ searchIndices name.bytes (MAX_NAME_LENGTH - 1), 0 ≤ i ∧ i < MAX_NAME_LENGTH
  unlinks : ∃ calls, unlinkCalls name.bytes flag dp = some calls ∧
    (∀ de ∈ calls, stem name.bytes <+: de.bytes) ∧ (UNDERSCORE ∉ name.bytes → calls = [])

/-- `images_check_and_update` makes these calls of `unlink` at every line that names the image, after
it has asked for it. It has no result where they are `none`. -/
def Removes (name : MissingName) (flag : Byte) (dp : List Name) (calls : Option (List Name)) : Prop :=
  ∀ (env : Env) (imageDir : Path) (line : List Byte) (b : Board),
    lineImage env line = some name.bytes → absent env b.files (inDir imageDir name.bytes) = true →
      (checkLine env imageDir flag line b dp).map Prod.fst
        = (reqImage env (countAbsent b imageDir) name.bytes flag).bind fun asked =>
            calls.map fun calls => calls.foldl (fun b de => b.unlink de.bytes) asked.1

/-! ### The search -/

/-- Without an underscore the search ends in front of the name. -/
theorem search_none {l : List Byte} (h : UNDERSCORE ∉ l) (k : Nat) :
    (-1 : Int) ∈ searchIndices l k := by
  induction k with
  | zero => exact List.mem_singleton_self _
  | succ k ih =>
    have hget : ¬l.getD k 0 = UNDERSCORE := fun hat =>
      h ((mem_underscore_iff (Nat.le_max_left _ (k + 1))).mp
        ⟨k, lt_of_lt_of_le (Nat.lt_succ_self k) (Nat.le_max_right _ _), hat⟩)
    rw [searchIndices, if_neg hget]
    exact List.mem_cons_of_mem _ ih

/-- Behind the last underscore there is none. -/
theorem getD_last_underscore {front back : List Byte} (h : UNDERSCORE ∉ back) {k : Nat}
    (hk : front.length < k) : ¬(front ++ UNDERSCORE :: back).getD k 0 = UNDERSCORE := by
  obtain ⟨j, rfl⟩ : ∃ j, k = front.length + (j + 1) := ⟨k - front.length - 1, by omega⟩
  intro hat
  rw [List.getD_append_right _ _ _ _ (by omega), Nat.add_sub_cancel_left, List.getD_cons_succ] at hat
  rcases Nat.lt_or_ge j back.length with hj | hj
  · rw [List.getD_eq_getElem _ _ hj] at hat
    exact h (hat ▸ List.getElem_mem hj)
  · rw [List.getD_eq_default _ _ hj] at hat
    exact absurd hat (by decide)

/-- With an underscore the search ends at the last one. -/
theorem search_last {front back : List Byte} (h : UNDERSCORE ∉ back) {k : Nat}
    (hk : front.length < k) :
    searchUnderscore (front ++ UNDERSCORE :: back) k = front.length ∧
      ∀ i ∈ searchIndices (front ++ UNDERSCORE :: back) k, 0 ≤ i ∧ i < k := by
  induction k with
  | zero => omega
  | succ k ih =>
    rw [searchIndices]
    by_cases hat : k = front.length
    · have hfound : (front ++ UNDERSCORE :: back).getD k 0 = UNDERSCORE := by
        rw [hat, List.getD_append_right _ _ _ _ (Nat.le_refl _), Nat.sub_self, List.getD_cons_zero]
      rw [if_pos hfound]
      refine ⟨(if_pos hfound).trans (congrArg Nat.cast hat), fun i hi => ?_⟩
      rw [List.mem_singleton.mp hi]
      omega
    · -- The index is still behind the last underscore.
      have hpast := getD_last_underscore h (show front.length < k by omega)
      obtain ⟨hend, hinside⟩ := ih (by omega)
      rw [if_neg hpast]
      refine ⟨(if_neg hpast).trans hend, fun i hi => ?_⟩
      rcases List.mem_cons.mp hi with rfl | hi
      · omega
      · have := hinside i hi
        omega

/-- The stem is what stands before the last underscore. -/
theorem stem_eq {front back : List Byte} (h : UNDERSCORE ∉ back) :
    stem (front ++ UNDERSCORE :: back) = front := by
  have hback : ∀ c ∈ back, decide (c ≠ UNDERSCORE) = true := fun c hc =>
    decide_eq_true (ne_of_mem_of_not_mem hc h)
  rw [stem, List.append_cons, rdropWhile_append_of_all hback,
    List.rdropWhile_concat_neg _ _ _ (by simp), List.dropLast_concat]

/-- A name with an underscore has a last one. -/
theorem exists_last_underscore {l : List Byte} (h : UNDERSCORE ∈ l) :
    ∃ front back, l = front ++ UNDERSCORE :: back ∧ UNDERSCORE ∉ back := by
  obtain ⟨back, front, hsplit, hback⟩ := List.eq_append_cons_of_mem (List.mem_reverse.mpr h)
  refine ⟨front.reverse, back.reverse, ?_, by simpa using hback⟩
  rw [← List.reverse_reverse l, hsplit]
  simp

/-! ### The removal -/

/-- A first part of a name is a C string. -/
theorem MissingName.cString_take (name : MissingName) (k : Nat) :
    cString (name.bytes.take k) = name.bytes.take k := by
  rw [cString, List.takeWhile_eq_self_iff]
  exact fun c hc => decide_eq_true (name.noZero c (List.mem_of_mem_take hc))

/-- A name is a C string. -/
theorem MissingName.cString_bytes (name : MissingName) : cString name.bytes = name.bytes := by
  have h := name.cString_take name.bytes.length
  rwa [List.take_length] at h

/-- The calls of `unlink` behind `req_image`. -/
def stemCalls (imageName : List Byte) (dp : List Name) : Option (List Name) :=
  let pch := searchUnderscore imageName (MAX_NAME_LENGTH - 1)
  if pch = 0 then some []
  else if pch < 0 then none
  else
    match dp with
    | [] => some []
    | de :: _ =>
      some (if (cString (imageName.take pch.toNat)).isPrefixOf de.bytes then [] else [de])

/-- A name that does not fit the buffer is not asked for. -/
theorem unlinkCalls_eq (name : MissingName) (flag : Byte) (dp : List Name) :
    unlinkCalls name.bytes flag dp
      = if name.bytes.length ≤ 126 then stemCalls name.bytes dp else none := by
  rw [unlinkCalls, name.cString_bytes, messages_reqImage_eq name.short]
  by_cases hfits : name.bytes.length ≤ 126
  · rw [if_pos hfits, if_pos hfits]
    cases dp <;> rfl
  · rw [if_neg hfits, if_neg hfits]
    rfl

/-- `removeOld` makes the calls of `unlink`. -/
theorem removeOld_eq (b : Board) (imageName : List Byte) (dp : List Name) :
    (removeOld b imageName dp).map Prod.fst
      = (stemCalls imageName dp).map fun calls =>
          calls.foldl (fun b de => b.unlink de.bytes) b := by
  unfold removeOld stemCalls
  dsimp only
  split
  · rfl
  · split
    · rfl
    · cases dp with
      | nil => rfl
      | cons de dp =>
        dsimp only
        split <;> rfl

/-- What `remove_old` unlinks is the list of its calls. -/
theorem removes_unlinkCalls (name : MissingName) (flag : Byte) (dp : List Name) :
    Removes name flag dp (unlinkCalls name.bytes flag dp) := by
  intro env imageDir line b hline habsent
  have hasked := @reqImage_eq env _ name.short (countAbsent b imageDir) flag
  rw [checkLine, hline]
  dsimp only
  rw [name.cString_bytes, if_pos habsent, askImage, name.cString_bytes, unlinkCalls_eq]
  cases hreq : reqImage env (countAbsent b imageDir) name.bytes flag with
  | none => rfl
  | some asked =>
    -- The name has fitted the buffer.
    have hfits : name.bytes.length ≤ 126 := by
      by_contra hlong
      rw [hreq, if_neg hlong] at hasked
      cases hasked
    rw [if_pos hfits]
    exact removeOld_eq asked.1 name.bytes dp

/-- The search and the name that is left, where there is an underscore. -/
theorem MissingName.search_eq (name : MissingName) (h : UNDERSCORE ∈ name.bytes) :
    searchUnderscore name.bytes (MAX_NAME_LENGTH - 1) = (stem name.bytes).length ∧
      (∀ i ∈ searchIndices name.bytes (MAX_NAME_LENGTH - 1), 0 ≤ i ∧ i < MAX_NAME_LENGTH) ∧
      cString (name.bytes.take (stem name.bytes).length) = stem name.bytes := by
  obtain ⟨front, back, hname, hback⟩ := exists_last_underscore h
  have hlt : front.length < MAX_NAME_LENGTH - 1 := by
    have hshort := name.short
    rw [hname, List.length_append, List.length_cons] at hshort
    omega
  obtain ⟨hsearch, hinside⟩ := search_last hback hlt
  have hstem : stem name.bytes = front := by rw [hname, stem_eq hback]
  have htake : name.bytes.take front.length = front := by
    rw [hname]
    exact List.take_left
  rw [hstem, name.cString_take, htake]
  rw [← hname] at hsearch hinside
  refine ⟨hsearch, fun i hi => ?_, rfl⟩
  have := hinside i hi
  omega

/-- Where there is an underscore, the next entry is removed if it does not share the part in front of
it. -/
theorem mem_stemCalls {name : MissingName} (h : UNDERSCORE ∈ name.bytes) (dp : List Name) :
    ∃ calls, stemCalls name.bytes dp = some calls ∧
      ∀ de, de ∈ calls ↔ dp.head? = some de ∧ ¬stem name.bytes <+: de.bytes := by
  obtain ⟨hsearch, -, hcut⟩ := name.search_eq h
  unfold stemCalls
  dsimp only
  rw [hsearch]
  by_cases hfirst : stem name.bytes = []
  · -- The name begins with its only underscore, and nothing is compared.
    rw [hfirst, List.length_nil, if_pos (by rfl)]
    refine ⟨[], rfl, fun de => ?_⟩
    exact iff_of_false List.not_mem_nil fun hde => hde.2 List.nil_prefix
  · have hpos := List.length_pos_iff.mpr hfirst
    rw [if_neg (by omega), if_neg (by omega)]
    cases dp with
    | nil =>
      refine ⟨[], rfl, fun de => ?_⟩
      exact iff_of_false List.not_mem_nil fun hde => absurd hde.1 (by simp)
    | cons next dp =>
      rw [Int.toNat_natCast, hcut]
      refine ⟨_, rfl, fun de => ?_⟩
      rw [List.head?_cons, Option.some_inj]
      split
      case isTrue hshare =>
        refine iff_of_false List.not_mem_nil ?_
        rintro ⟨rfl, hnot⟩
        exact hnot (List.isPrefixOf_iff_prefix.mp hshare)
      case isFalse hnot =>
        rw [List.mem_singleton]
        constructor
        · rintro rfl
          exact ⟨rfl, fun hshare => hnot (List.isPrefixOf_iff_prefix.mpr hshare)⟩
        · rintro ⟨rfl, -⟩
          rfl

/-- Without an underscore the search stores in front of the name. -/
theorem stemCalls_none {name : MissingName} (h : UNDERSCORE ∉ name.bytes) (dp : List Name) :
    stemCalls name.bytes dp = none := by
  have hneg := (search_neg_iff name.short).mpr h
  unfold stemCalls
  dsimp only
  rw [if_neg (by omega), if_pos hneg]

/-- What is expected holds exactly where the name fits the buffer, there is an underscore and the next
entry, if there is one, shares the part in front of it. -/
theorem removesOnlyStale_iff (name : MissingName) (flag : Byte) (dp : List Name) :
    RemovesOnlyStale name flag dp ↔
      name.bytes.length ≤ 126 ∧ UNDERSCORE ∈ name.bytes ∧
        ∀ de, dp.head? = some de → stem name.bytes <+: de.bytes := by
  by_cases hfits : name.bytes.length ≤ 126
  · rw [and_iff_right hfits]
    by_cases h : UNDERSCORE ∈ name.bytes
    · obtain ⟨calls, hcalls, hmem⟩ := mem_stemCalls h dp
      have heq := unlinkCalls_eq name flag dp
      rw [if_pos hfits, hcalls] at heq
      rw [and_iff_right h]
      constructor
      · intro hok de hde
        obtain ⟨calls', heq', hshared, -⟩ := hok.unlinks
        by_contra hnot
        rw [← Option.some.inj (heq.symm.trans heq')] at hshared
        exact hnot (hshared de ((hmem de).mpr ⟨hde, hnot⟩))
      · intro hnext
        refine ⟨(name.search_eq h).2.1, calls, heq, fun de hde => ?_, fun hnone => absurd h hnone⟩
        exact hnext de ((hmem de).mp hde).1
    · -- The search has gone to the index -1.
      refine iff_of_false (fun hok => ?_) fun hcond => h hcond.1
      have := (hok.inside (-1) (search_none h _)).1
      omega
  · refine iff_of_false (fun hok => ?_) fun hcond => hfits hcond.1
    obtain ⟨calls, heq, -⟩ := hok.unlinks
    rw [unlinkCalls_eq, if_neg hfits] at heq
    cases heq

/-- For every missing name and every rest of the directory: which calls of `unlink` the code makes,
that it stores outside of an array for a name of 127 bytes or without an underscore, and when all is
as expected. -/
theorem images_remove_only_stale_iff (name : MissingName) (flag : Byte) (dp : List Name) :
    Removes name flag dp (unlinkCalls name.bytes flag dp) ∧
      (unlinkCalls name.bytes flag dp = none ↔
        name.bytes.length = 127 ∨ UNDERSCORE ∉ name.bytes) ∧
      (RemovesOnlyStale name flag dp ↔
        name.bytes.length ≤ 126 ∧ UNDERSCORE ∈ name.bytes ∧
          ∀ de, dp.head? = some de → stem name.bytes <+: de.bytes) := by
  refine ⟨removes_unlinkCalls name flag dp, ?_, removesOnlyStale_iff name flag dp⟩
  have hshort := name.short
  simp only [MAX_NAME_LENGTH] at hshort
  rw [unlinkCalls_eq]
  by_cases hfits : name.bytes.length ≤ 126
  · rw [if_pos hfits, or_iff_right (by omega)]
    by_cases h : UNDERSCORE ∈ name.bytes
    · obtain ⟨calls, hcalls, -⟩ := mem_stemCalls h dp
      rw [hcalls]
      exact iff_of_false (Option.some_ne_none calls) fun hnone => hnone h
    · exact iff_of_true (stemCalls_none h dp) h
  · rw [if_neg hfits]
    exact iff_of_true rfl (Or.inl (by omega))

/-- `a_1`. -/
def aOne : MissingName where
  bytes := [0x61, UNDERSCORE, 0x31]
  pos := by decide
  short := by decide
  noZero := by simp [UNDERSCORE]

/-- `b`. -/
def entryB : Name where
  bytes := [0x62]
  noSlash := by decide

/-- The file `b` is removed when `a_1` is asked for. -/
theorem other_file_removed : ¬RemovesOnlyStale aOne 0x01 [entryB] := by
  intro h
  have hshare := ((removesOnlyStale_iff aOne 0x01 [entryB]).mp h).2.2 entryB rfl
  exact absurd hshare (by decide)

end LearnGit.Proofs.Uart
