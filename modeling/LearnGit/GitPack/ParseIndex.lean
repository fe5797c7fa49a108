import LearnGit.Lib.Bytes

/-!
# `LearnGit.GitPack.ParseIndex`: the check of an index

`main` of `gitpack_parse/parse_index.c` from the `mmap` on. The file has a header of 8 bytes, a
table of 256 big-endian numbers and names of 20 bytes. The `i`-th number is how many names have a
first byte up to `i`. The first loop checks that the numbers do not decrease and keeps their
differences, and the second one checks the first byte of as many names as each of them says. What
is printed is left out.

A run stops at its first read behind the file, since what it reads there is not part of it.
-/

set_option autoImplicit false

namespace LearnGit.GitPack

open LearnGit.Lib

/-- Where a run ends that does not go through both checks. -/
inductive Stop where
  /-- `mmap` fails, which it does for an empty file. -/
  | mapFailed
  /-- The label `ERR`. -/
  | err
  /-- A byte at or behind the size of the file is read. -/
  | outside
  deriving DecidableEq, Repr

/-- The offset of the table. -/
def TABLE : Nat := 8

/-- The offset of the names. -/
def NAMES : Nat := TABLE + 256 * 4

def NAME_SIZE : Nat := 20

/-- The big-endian number at this offset, with zeros behind the file. -/
def bigEndian (file : List UInt8) (offset : Nat) : Nat :=
  (file.getD offset 0).toNat * 2 ^ 24 + (file.getD (offset + 1) 0).toNat * 2 ^ 16
    + (file.getD (offset + 2) 0).toNat * 2 ^ 8 + (file.getD (offset + 3) 0).toNat

/-- `ntohl(entry_table_p[i])`. -/
def ntohl (file : List UInt8) (i : Nat) : Except Stop Nat :=
  if TABLE + 4 * i + 4 ≤ file.length then .ok (bigEndian file (TABLE + 4 * i)) else .error .outside

/-- The loop over the table, with this many rounds left. The result is `entry_table` from `i` on.
`frontValue` is an `int`, and it is an `unsigned int` where it is compared and subtracted. -/
def fanoutLoop (file : List UInt8) : Nat → Nat → Nat → Except Stop (List Int)
  | 0, _, _ => .ok []
  | left + 1, i, frontValue =>
    match ntohl file i with
    | .error stop => .error stop
    | .ok value =>
      if frontValue > value then .error .err
      else
        match fanoutLoop file left (i + 1) value with
        | .error stop => .error stop
        | .ok entries => .ok (toInt32 (value - frontValue) :: entries)

/-- The loop over `j`, with this many rounds left. The result is `cur_mem_location`. -/
def namesLoop (file : List UInt8) (i : Nat) : Nat → Nat → Except Stop Nat
  | 0, curMemLocation => .ok curMemLocation
  | left + 1, curMemLocation =>
    match file[curMemLocation]? with
    | none => .error .outside
    | some b =>
      if b.toNat ≠ i then .error .err else namesLoop file i left (curMemLocation + NAME_SIZE)

/-- The loop over `entry_table` from `i` on. The number of rounds of the inner loop is compared
with the entry, which is negative when the difference is no `int`. -/
def bucketsLoop (file : List UInt8) : List Int → Nat → Nat → Except Stop Unit
  | [], _, _ => .ok ()
  | entry :: entries, i, curMemLocation =>
    match namesLoop file i entry.toNat curMemLocation with
    | .error stop => .error stop
    | .ok curMemLocation =>
      if (entry.toNat : Int) = entry then bucketsLoop file entries (i + 1) curMemLocation
      else .error .err

/-- `main`, for an index with these bytes. -/
def parseIndex (file : List UInt8) : Except Stop Unit :=
  if file = [] then .error .mapFailed
  else if file.length < TABLE then .error .outside
  else
    match fanoutLoop file 256 0 0 with
    | .error stop => .error stop
    | .ok entryTable => bucketsLoop file entryTable 0 NAMES

end LearnGit.GitPack
