import LearnGit.Lib.Checked
import LearnGit.Uart.App.Images

/-!
# `LearnGit.Proofs.Uart.Images`: what a scan asks for

`images_check_and_update` has a result exactly when each image that it asks for has a name that fits
the buffer of `req_image` and has an underscore (`imagesCheckAndUpdate_yields`). The images it asks
for are read off the file and the directory (`scanAsks`): what it removes on its way are entries of
the working directory, and no path with a slash is one of these.
-/

set_option autoImplicit false

namespace LearnGit.Proofs.Uart

open LearnGit.Lib
open LearnGit.Uart.Link (Byte)
open LearnGit.Uart.App
open LearnGit.Uart.App.Messages (Sending)

/-! ### Statement -/

/-- The lines that `images_check_and_update` reads, with this many rounds at most. -/
def fileLines : Nat → List Byte → List (List Byte)
  | 0, _ => []
  | rounds + 1, rest =>
    match readOneline (MAX_ONELINE_LENGTH - 1) rest with
    | none => []
    | some (line, rest) => line :: fileLines rounds rest

/-- The image of a line, if it has one that is absent. -/
def lineAsks (env : Env) (files : Files) (imageDir : Path) (line : List Byte) :
    List (List Byte) :=
  ((lineImage env line).filter fun name =>
    absent env files (inDir imageDir (cString name))).toList

/-- The images that a scan of a file with this content asks for. -/
def scanAsks (env : Env) (files : Files) (imageDir : Path) (content : List Byte) :
    List (List Byte) :=
  match env.entries imageDir with
  | none => []
  | some _ => (fileLines (content.length + 1) content).flatMap (lineAsks env files imageDir)

/-- The array `image_name` holds a name that fits the 128 bytes of `req_image`, and an underscore. -/
structure SafeName (imageName : List Byte) : Prop where
  fits : (cString imageName).length ≤ 126
  underscore : UNDERSCORE ∈ imageName

instance (imageName : List Byte) : Decidable (SafeName imageName) :=
  decidable_of_iff ((cString imageName).length ≤ 126 ∧ UNDERSCORE ∈ imageName)
    ⟨fun h => ⟨h.1, h.2⟩, fun h => ⟨h.fits, h.underscore⟩⟩

/-- What a board has done when it has asked for these images. -/
structure AskedFor (imageDir : Path) (flag : Byte) (names : List (List Byte)) (b b' : Board) :
    Prop where
  linkOut : b'.linkOut
    = b.linkOut ++ names.map fun name => AppCmd.e2mReqImage.code :: flag :: cString name
  counted : b'.blfFilesNum
    = b.blfFilesNum + if BLF_IMAGES_PATH = imageDir then (names.length : Int) else 0
  files : ∀ path, SLASH ∈ path → b'.files path = b.files path

/-! ### The search for the underscore -/

/-- The search ends at an index of the array exactly when there is an underscore below it. -/
theorem searchUnderscore_nonneg {l : List Byte} {k : Nat} :
    0 ≤ searchUnderscore l k ↔ ∃ i < k, l.getD i 0 = UNDERSCORE := by
  induction k with
  | zero => simp [searchUnderscore]
  | succ k ih =>
    rw [searchUnderscore]
    split
    case isTrue hat => exact iff_of_true (Int.natCast_nonneg k) ⟨k, Nat.lt_succ_self k, hat⟩
    case isFalse hat =>
      rw [ih]
      constructor
      · rintro ⟨i, hi, hget⟩
        exact ⟨i, Nat.lt_succ_of_lt hi, hget⟩
      · rintro ⟨i, hi, hget⟩
        rcases Nat.lt_succ_iff_lt_or_eq.mp hi with hlt | rfl
        · exact ⟨i, hlt, hget⟩
        · exact absurd hget hat

/-- The zeros behind a name are no underscores. -/
theorem mem_underscore_iff {l : List Byte} {k : Nat} (hk : l.length ≤ k) :
    (∃ i < k, l.getD i 0 = UNDERSCORE) ↔ UNDERSCORE ∈ l := by
  constructor
  · rintro ⟨i, -, hget⟩
    rw [List.getD_eq_getElem?_getD] at hget
    cases hat : l[i]? with
    | none =>
      rw [hat] at hget
      exact absurd hget (by decide)
    | some c =>
      rw [hat] at hget
      exact hget ▸ List.mem_of_getElem? hat
  · intro hmem
    obtain ⟨i, hi, hget⟩ := List.getElem_of_mem hmem
    exact ⟨i, by omega, by rw [List.getD_eq_getElem _ _ hi, hget]⟩

/-- The search in `image_name` goes to -1 exactly for a name without an underscore. -/
theorem search_neg_iff {imageName : List Byte} (hlen : imageName.length ≤ MAX_NAME_LENGTH - 1) :
    searchUnderscore imageName (MAX_NAME_LENGTH - 1) < 0 ↔ UNDERSCORE ∉ imageName := by
  rw [← not_le, searchUnderscore_nonneg, mem_underscore_iff hlen]

/-! ### A request -/

variable {env : Env} {b : Board}

/-- A copy that ends at a quotation mark fits `image_name`. -/
theorem copyImageName_length (env : Env) (line : List Byte) (pch : Nat) :
    (copyImageName env line pch).length ≤ MAX_NAME_LENGTH - 1 := by
  refine (List.takeWhile_sublist _).length_le.trans ?_
  rw [List.length_map, List.length_range]

/-- The name that a line of the file gives is shorter than its buffer. -/
theorem lineImage_length {line imageName : List Byte} (h : lineImage env line = some imageName) :
    imageName.length ≤ MAX_NAME_LENGTH - 1 := by
  obtain ⟨pch, -, rfl⟩ := Option.map_eq_some_iff.mp h
  exact copyImageName_length env line (pch + 7)

/-- A C string is no longer than its bytes. -/
theorem cString_length (bytes : List Byte) : (cString bytes).length ≤ bytes.length :=
  (List.takeWhile_sublist _).length_le

/-- A name of at most 127 bytes is asked for as it is, or does not fit the buffer. -/
theorem messages_reqImage_eq {name : List Byte} (hlen : name.length ≤ MAX_NAME_LENGTH - 1)
    (flag : Byte) :
    Messages.reqImage name flag
      = if name.length ≤ 126 then some (.item 0x01 (AppCmd.e2mReqImage.code :: flag :: name))
        else none := by
  have hmod : name.length % 256 = name.length := by
    simp only [MAX_NAME_LENGTH] at hlen
    omega
  rw [Messages.reqImage]
  simp only [hmod, List.take_length]
  by_cases h : name.length ≤ 126
  · rw [if_pos h, if_pos (by omega)]
  · rw [if_neg h, if_neg (by omega)]

/-- A request is queued where its name has at most 126 bytes, and overruns the buffer else. -/
theorem reqImage_eq {name : List Byte} (hlen : name.length ≤ MAX_NAME_LENGTH - 1) (b : Board)
    (flag : Byte) :
    (reqImage env b name flag).map Prod.fst
      = if name.length ≤ 126 then
          some { b with linkOut := b.linkOut ++ [AppCmd.e2mReqImage.code :: flag :: name] }
        else none := by
  rw [reqImage, messages_reqImage_eq hlen]
  by_cases h : name.length ≤ 126
  · simp only [if_pos h]
    rfl
  · simp only [if_neg h]
    rfl

/-- A name of a directory entry is not a path with a slash. -/
theorem unlink_name_keeps (b : Board) (de : Name) {path : Path} (hslash : SLASH ∈ path) :
    (b.unlink de.bytes).files path = b.files path :=
  FileMap.unlink_of_ne fun he => de.noSlash (he ▸ hslash)

/-- Asking for nothing changes nothing. -/
theorem AskedFor.refl (imageDir : Path) (flag : Byte) (b : Board) :
    AskedFor imageDir flag [] b b :=
  ⟨by simp, by simp, fun _ _ => rfl⟩

/-- Asking for two lists of names is asking for both. -/
theorem AskedFor.trans {imageDir : Path} {flag : Byte} {names names' : List (List Byte)}
    {b b' b'' : Board} (h : AskedFor imageDir flag names b b')
    (h' : AskedFor imageDir flag names' b' b'') :
    AskedFor imageDir flag (names ++ names') b b'' := by
  refine ⟨?_, ?_, fun path hpath => (h'.files path hpath).trans (h.files path hpath)⟩
  · rw [h'.linkOut, h.linkOut, List.map_append, List.append_assoc]
  · rw [h'.counted, h.counted, List.length_append]
    split <;> omega

/-- The removal of an old version asks for nothing. -/
theorem removeOld_yields {imageName : List Byte} (hlen : imageName.length ≤ MAX_NAME_LENGTH - 1)
    (imageDir : Path) (flag : Byte) (b : Board) (dp : List Name) :
    Yields (UNDERSCORE ∈ imageName)
      (fun r => UNDERSCORE ∈ imageName ∧ AskedFor imageDir flag [] b r.1)
      (removeOld b imageName dp) := by
  have hkeep := AskedFor.refl imageDir flag b
  have hneg := search_neg_iff hlen
  simp only [removeOld]
  by_cases hmem : UNDERSCORE ∈ imageName
  · rw [if_neg (fun h => hneg.mp h hmem)]
    split
    · exact ⟨hmem, hkeep⟩
    · cases dp with
      | nil => exact ⟨hmem, hkeep⟩
      | cons de dp =>
        dsimp only
        split
        · exact ⟨hmem, hkeep⟩
        · exact ⟨hmem, hkeep.linkOut, hkeep.counted, fun path => unlink_name_keeps b de⟩
  · have hlt := hneg.mpr hmem
    rw [if_neg (by omega), if_pos hlt]
    exact hmem

/-- An image is asked for exactly when its name is safe. -/
theorem askImage_yields {imageName : List Byte} (hlen : imageName.length ≤ MAX_NAME_LENGTH - 1)
    (imageDir : Path) (flag : Byte) (b : Board) (dp : List Name) :
    Yields (SafeName imageName)
      (fun r => SafeName imageName ∧ AskedFor imageDir flag [imageName] b r.1)
      (askImage env imageDir flag imageName b dp) := by
  have hreq := @reqImage_eq env _ ((cString_length imageName).trans hlen)
    (countAbsent b imageDir) flag
  rw [askImage]
  cases hat : reqImage env (countAbsent b imageDir) (cString imageName) flag with
  | none =>
    -- The name does not fit the buffer.
    rw [hat] at hreq
    rintro ⟨hfits, -⟩
    rw [if_pos hfits] at hreq
    cases hreq
  | some r =>
    obtain ⟨b', ret⟩ := r
    rw [hat] at hreq
    by_cases hfits : (cString imageName).length ≤ 126
    · rw [if_pos hfits] at hreq
      have hasked : AskedFor imageDir flag [imageName] b b' := by
        rw [show b' = _ from Option.some.inj hreq]
        refine ⟨rfl, ?_, fun _ _ => rfl⟩
        show (if BLF_IMAGES_PATH = imageDir then b.blfFilesNum + 1 else b.blfFilesNum) = _
        split <;> simp
      refine ((removeOld_yields hlen imageDir flag b' dp).mono SafeName.underscore ?_)
      rintro r ⟨hmem, hremoved⟩
      exact ⟨⟨hfits, hmem⟩, by simpa using hasked.trans hremoved⟩
    · rw [if_neg hfits] at hreq
      cases hreq

/-! ### The lines of a file -/

/-- What a line asks for does not depend on the names of the working directory. -/
theorem lineAsks_congr {files files' : Files}
    (h : ∀ path, SLASH ∈ path → files' path = files path) (imageDir : Path) (line : List Byte) :
    lineAsks env files' imageDir line = lineAsks env files imageDir line := by
  have habsent : ∀ name, absent env files' (inDir imageDir name)
      = absent env files (inDir imageDir name) := by
    intro name
    have hpath : SLASH ∈ inDir imageDir name := List.mem_append_right _ List.mem_cons_self
    rw [absent, absent, h _ hpath]
  simp only [lineAsks, habsent]

/-- A line is checked where the names that it asks for are safe, and asks for them. -/
theorem checkLine_yields (env : Env) (imageDir : Path) (flag : Byte) (line : List Byte) (b : Board)
    (dp : List Name) :
    Yields (∀ name ∈ lineAsks env b.files imageDir line, SafeName name)
      (fun r => (∀ name ∈ lineAsks env b.files imageDir line, SafeName name) ∧
        AskedFor imageDir flag (lineAsks env b.files imageDir line) b r.1)
      (checkLine env imageDir flag line b dp) := by
  rw [checkLine]
  cases hname : lineImage env line with
  | none =>
    rw [lineAsks, hname]
    exact ⟨by simp, AskedFor.refl imageDir flag b⟩
  | some imageName =>
    dsimp only
    by_cases habsent : absent env b.files (inDir imageDir (cString imageName)) = true
    · have hasks : lineAsks env b.files imageDir line = [imageName] := by
        rw [lineAsks, hname, Option.filter_some, if_pos habsent]
        rfl
      rw [if_pos habsent, hasks]
      refine (askImage_yields (lineImage_length hname) imageDir flag b dp).mono ?_ ?_
      · exact fun h => h imageName (List.mem_singleton_self _)
      · rintro r ⟨hsafe, hasked⟩
        exact ⟨by simpa using hsafe, hasked⟩
    · have hasks : lineAsks env b.files imageDir line = [] := by
        rw [lineAsks, hname, Option.filter_some, if_neg habsent]
        rfl
      rw [if_neg habsent, hasks]
      exact ⟨by simp, AskedFor.refl imageDir flag b⟩

/-- A line read from a file shortens what is left of it. -/
theorem readOneline_lt (rest : List Byte) :
    ∀ (slots : Nat) {line rest' : List Byte},
      readOneline (slots + 1) rest = some (line, rest') → rest'.length < rest.length := by
  induction rest with
  | nil =>
    intro slots line rest' h
    exact nomatch h
  | cons c rest ih =>
    intro slots line rest' h
    rw [readOneline] at h
    by_cases hblank : isBlank c = true
    · rw [if_pos hblank] at h
      exact Nat.lt_succ_of_lt (ih slots h)
    by_cases hend : c = 0x3E
    · rw [if_neg hblank, if_pos hend] at h
      rw [← (Prod.mk.inj (Option.some.inj h)).2]
      exact Nat.lt_succ_self _
    rw [if_neg hblank, if_neg hend] at h
    obtain ⟨⟨line', rest''⟩, hrec, hpair⟩ := Option.map_eq_some_iff.mp h
    rw [← (Prod.mk.inj hpair).2]
    -- The character fills a slot, and the rest of the line may have none.
    cases slots with
    | zero =>
      rw [readOneline] at hrec
      rw [← (Prod.mk.inj (Option.some.inj hrec)).2]
      exact Nat.lt_succ_self _
    | succ slots => exact Nat.lt_succ_of_lt (ih slots hrec)

/-! ### A scan -/

/-- The end of a scan: the GUI is started where nothing is missing. -/
def ScanEnd (env : Env) (b b' : Board) : Prop := b' = b ∨ b' = b.callGui env .startGui

/-- The loop ends. It has a result exactly when each image that it asks for has a safe name. -/
theorem imagesLoop_yields (env : Env) (imageDir : Path) (flag : Byte) (rounds : Nat) :
    ∀ (rest : List Byte) (dp : List Name) (b : Board), rest.length < rounds →
      Yields (∀ name ∈ (fileLines rounds rest).flatMap (lineAsks env b.files imageDir),
          SafeName name)
        (fun r => (∀ name ∈ (fileLines rounds rest).flatMap (lineAsks env b.files imageDir),
            SafeName name) ∧
          ∃ b', AskedFor imageDir flag
              ((fileLines rounds rest).flatMap (lineAsks env b.files imageDir)) b b' ∧
            ScanEnd env b' r.1)
        (imagesLoop env imageDir flag rounds rest dp b) := by
  induction rounds with
  | zero =>
    intro rest dp b hlen
    exact absurd hlen (Nat.not_lt_zero _)
  | succ rounds ih =>
    intro rest dp b hlen
    rw [imagesLoop, fileLines]
    cases hline : readOneline (MAX_ONELINE_LENGTH - 1) rest with
    | none =>
      refine ⟨by simp, b, AskedFor.refl imageDir flag b, ?_⟩
      dsimp only
      split
      · exact Or.inr rfl
      · exact Or.inl rfl
    | some next =>
      obtain ⟨line, rest'⟩ := next
      -- A line takes at least a byte of the file, so the rounds suffice.
      have hshort := readOneline_lt rest (MAX_ONELINE_LENGTH - 2) hline
      simp only [List.flatMap_cons, List.forall_mem_append]
      refine Yields.bind ((checkLine_yields env imageDir flag line b dp).mono And.left fun r => id) ?_
      rintro ⟨b₁, dp₁⟩ - ⟨hsafe, hasked⟩
      have hrest := ih rest' dp₁ b₁ (by omega)
      have hcongr : lineAsks env b₁.files imageDir = lineAsks env b.files imageDir :=
        funext fun line => lineAsks_congr hasked.files imageDir line
      rw [hcongr] at hrest
      refine hrest.mono And.right ?_
      rintro r ⟨hsafe', b', hasked', hend⟩
      exact ⟨⟨hsafe, hsafe'⟩, b', hasked.trans hasked', hend⟩

/-- A scan has a result exactly when each image that it asks for has a safe name, and the result is
that it has asked for them. -/
theorem imagesCheckAndUpdate_yields (env : Env) (b : Board) (content : List Byte) (imageDir : Path)
    (flag : Byte) :
    Yields (∀ name ∈ scanAsks env b.files imageDir content, SafeName name)
      (fun r => (∀ name ∈ scanAsks env b.files imageDir content, SafeName name) ∧
        ∃ b', AskedFor imageDir flag (scanAsks env b.files imageDir content) b b' ∧
          ScanEnd env b' r.1)
      (imagesCheckAndUpdate env b content imageDir flag) := by
  rw [imagesCheckAndUpdate, scanAsks]
  cases env.entries imageDir with
  | none => exact ⟨by simp, b, AskedFor.refl imageDir flag b, Or.inl rfl⟩
  | some entries =>
    exact imagesLoop_yields env imageDir flag _ content entries b (Nat.lt_succ_self _)

end LearnGit.Proofs.Uart
