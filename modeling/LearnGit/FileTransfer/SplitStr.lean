import LearnGit.FileTransfer.Basic
import LearnGit.Lib.Loop

/-!
# `LearnGit.FileTransfer.SplitStr`: the parts of a string

`splitStr` and `reverseStr` of `unpv/filetransfer/client.c`. `splitStr` takes the part of a string
with a given number: a positive number counts from the front, and the others count from the end,
which the code finds in the reversed string.

Strings are C strings without their NUL. `strdup` always returns a copy. The model keeps the `int`
of the source: the length that `reverseStr` computes wraps round, and `splitStr` is undefined where
its own arithmetic overflows.
-/

set_option autoImplicit false

namespace LearnGit.FileTransfer.Client

open LearnGit.Lib

/-- `swap = str[i]; str[i] = str[j]; str[j] = swap;` -/
def swapBytes (str : List Byte) (i j : Nat) : List Byte :=
  (str.set i (str.getD j 0)).set j (str.getD i 0)

/-- `reverseStr`. `strLen` is the length as an `int`. -/
def reverseStr (str : List Byte) : List Byte :=
  if str.length = 1 then str
  else
    let strLen := toInt32 str.length
    forUp 0 (strLen.tdiv 2).toNat (fun i _ _ str => swapBytes str i (strLen - i - 1).toNat) str

/-- `strtok(NULL, delim)`, where `save` is what the call before has left: the token, and what is
left behind the delimiter that ends it. The first call is the one with the whole string left. -/
def strtok (delim save : List Byte) : Option (List Byte) × List Byte :=
  match save.dropWhile (delim.contains ·) with
  | [] => (none, [])
  | c :: str =>
    (some ((c :: str).takeWhile (!delim.contains ·)),
      ((c :: str).dropWhile (!delim.contains ·)).tail)

/-- `for(i = 1; i < num && storeDesStr != NULL; i++)`, with this many rounds left. -/
def strtokLoop (splitingFlag : List Byte) : Nat → Option (List Byte) → List Byte →
    Option (List Byte)
  | 0, storeDesStr, _ => storeDesStr
  | _ + 1, none, _ => none
  | rounds + 1, some _, save =>
    let (storeDesStr, save) := strtok splitingFlag save
    strtokLoop splitingFlag rounds storeDesStr save

/-- The tokens of `splitedString` up to the one with the number `num`. -/
def findToken (splitedString splitingFlag : List Byte) (num : Int) : Option (List Byte) :=
  let (storeDesStr, save) := strtok splitingFlag splitedString
  if storeDesStr ≠ none ∧ num ≠ 1 then
    strtokLoop splitingFlag (num - 1).toNat storeDesStr save
  else storeDesStr

/-- `splitStr`. It is undefined when `0 - num + 1` is no `int`. -/
def splitStr (sourceStr flag : List Byte) (num : Int32) : Except Fault (Option (List Byte)) :=
  if num.toInt ≤ 0 then
    let num := 0 - num.toInt + 1
    if 2 ^ 31 ≤ num then .error .undefined
    else .ok ((findToken (reverseStr sourceStr) (reverseStr flag) num).map reverseStr)
  else .ok (findToken sourceStr flag num.toInt)

end LearnGit.FileTransfer.Client
