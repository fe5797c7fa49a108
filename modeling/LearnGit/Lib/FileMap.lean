import Mathlib.Logic.Function.Basic
import Mathlib.Tactic.Common

/-!
# `LearnGit.Lib.FileMap`: files as a map from paths to contents

The POSIX calls on regular files, over a map from paths to contents. A call that can fail
returns 0 or -1 beside the new map. `open` has two forms: with `O_CREAT`, where it cannot fail
here, and without, where the file has to exist. An open file is its path and an offset.

Neither directories nor permissions are modelled, and a device is never full.
-/

set_option autoImplicit false

namespace LearnGit.Lib

/-- A map from paths to the contents of the files that exist. -/
abbrev FileMap (P B : Type) := P → Option (List B)

/-- An open file. -/
structure Fd (P : Type) where
  path : P
  offset : Nat

namespace FileMap

variable {P B : Type} [DecidableEq P] (fs : FileMap P B)

/-- `unlink(path)`. -/
def unlink (path : P) : FileMap P B × Int :=
  if fs path = none then (fs, -1) else (Function.update fs path none, 0)

/-- `rename(old, new)`. Renaming a file to itself changes nothing. -/
def rename (old new : P) : FileMap P B × Int :=
  match fs old with
  | none => (fs, -1)
  | some content =>
    if old = new then (fs, 0)
    else (Function.update (Function.update fs new (some content)) old none, 0)

/-- `open(path, O_CREAT | ...)`, without `O_TRUNC`. -/
def openCreate (path : P) : FileMap P B × Fd P :=
  (Function.update fs path (some ((fs path).getD [])), ⟨path, 0⟩)

/-- `open(path, O_CREAT | O_TRUNC | ...)`, or `fopen(path, "w")`. -/
def openTrunc (path : P) : FileMap P B × Fd P := (Function.update fs path (some []), ⟨path, 0⟩)

/-- `open(path, ...)` without `O_CREAT`. -/
def openFile (path : P) : Option (Fd P) := (fs path).map fun _ => ⟨path, 0⟩

/-- `lseek(fd, 0, SEEK_END)`. -/
def seekEnd (fd : Fd P) : Fd P := { fd with offset := ((fs fd.path).getD []).length }

/-- `write(fd, data, n)` with all `n` bytes of `data`, at the offset. -/
def write (fd : Fd P) (data : List B) : FileMap P B × Nat :=
  let old := (fs fd.path).getD []
  (Function.update fs fd.path
    (some (old.take fd.offset ++ data ++ old.drop (fd.offset + data.length))), data.length)

variable {fs} {path : P}

/-! ### What is in the file -/

/-- `unlink` removes the file. -/
@[simp] theorem unlink_self : (fs.unlink path).1 path = none := by
  by_cases h : fs path = none
  · simp only [unlink, h, if_true]
  · simp only [unlink, h, if_false, Function.update_self]

/-- The file that an `open` after an `unlink` creates is empty. -/
theorem openCreate_unlink : ((fs.unlink path).1.openCreate path).1 path = some [] := by
  simp only [openCreate, Function.update_self, unlink_self, Option.getD_none]

/-- Opening with `O_TRUNC` leaves an empty file. -/
@[simp] theorem openTrunc_self : (fs.openTrunc path).1 path = some [] :=
  Function.update_self _ _ _

/-- A `write` fills an empty file. -/
theorem write_of_empty (h : fs path = some []) (data : List B) :
    (fs.write ⟨path, 0⟩ data).1 path = some data := by
  simp [write, h]

/-- A `write` at the end appends. -/
theorem write_seekEnd (fd : Fd P) {content : List B} (h : fs fd.path = some content)
    (data : List B) : (fs.write (fs.seekEnd fd) data).1 fd.path = some (content ++ data) := by
  simp [write, seekEnd, h]

/-- A `write` at the offset where the file ends appends. -/
theorem write_of_offset (fd : Fd P) {content : List B} (h : fs fd.path = some content)
    (hoffset : fd.offset = content.length) (data : List B) :
    (fs.write fd data).1 fd.path = some (content ++ data) := by
  simp [write, h, hoffset]

/-- `rename` of a file moves its content. -/
theorem rename_of_some {new : P} {content : List B} (h : fs path = some content)
    (hne : path ≠ new) :
    (fs.rename path new).2 = 0 ∧ (fs.rename path new).1 new = some content := by
  simp only [rename, h, if_neg hne]
  refine ⟨trivial, ?_⟩
  rw [Function.update_of_ne (Ne.symm hne), Function.update_self]

/-- The old name is gone. -/
theorem rename_old_of_some {new : P} {content : List B} (h : fs path = some content)
    (hne : path ≠ new) : (fs.rename path new).1 path = none := by
  simp only [rename, h, if_neg hne, Function.update_self]

omit [DecidableEq P] in
/-- A file that exists is opened at its start. -/
theorem openFile_of_some {content : List B} (h : fs path = some content) :
    fs.openFile path = some ⟨path, 0⟩ := by
  simp only [openFile, h, Option.map_some]

/-! ### What stays -/

variable {q : P}

/-- `unlink` leaves the other files. -/
@[simp] theorem unlink_of_ne (hne : q ≠ path) : (fs.unlink path).1 q = fs q := by
  by_cases h : fs path = none
  · simp only [unlink, h, if_true]
  · simp only [unlink, h, if_false, Function.update_of_ne hne]

/-- Opening with `O_TRUNC` leaves the other files. -/
theorem openTrunc_of_ne (hne : q ≠ path) : (fs.openTrunc path).1 q = fs q :=
  Function.update_of_ne hne _ _

/-- `write` leaves the other files. -/
theorem write_of_ne {fd : Fd P} (hne : q ≠ fd.path) (data : List B) :
    (fs.write fd data).1 q = fs q :=
  Function.update_of_ne hne _ _

end FileMap

end LearnGit.Lib
