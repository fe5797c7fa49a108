import LearnGit.Lib.Bytes
import LearnGit.Lib.Checked
import LearnGit.Lib.Numeral

/-!
# `LearnGit.ScanfReg.MacPlusPlus`: counting MAC addresses

The loops of `scanf_reg/mac_plus_plus.c` and `scanf_reg/mac_plus_plus_long_long.c`, as what a round
makes of the array `mac`. There is no result where the loop is left, where a round reads or writes
outside of the array and where a `long long` overflows.
-/

set_option autoImplicit false

namespace LearnGit.ScanfReg

open LearnGit.Lib

/-- `sprintf` into the array, which has to have a place for the NUL too. -/
def sprintf (mac text : List UInt8) : Option (List UInt8) :=
  if text.length < mac.length then some (text ++ 0 :: mac.drop (text.length + 1)) else none

/-- This number of rounds. -/
def iterations (round : List UInt8 → Option (List UInt8)) : Nat → List UInt8 → Option (List UInt8)
  | 0, mac => some mac
  | k + 1, mac => (round mac).bind (iterations round k)

/-! ### `mac_plus_plus.c` -/

namespace MacPlusPlus

/-- The characters that `sscanf` skips in front of a number. -/
def isSpace (c : UInt8) : Bool := c = 0x20 || (0x09 ≤ c && c ≤ 0x0D)

/-- The value of a hexadecimal digit. -/
def hexValue (c : UInt8) : Option Nat :=
  if 0x30 ≤ c ∧ c ≤ 0x39 then some (c.toNat - 0x30)
  else if 0x61 ≤ c ∧ c ≤ 0x66 then some (c.toNat - 0x61 + 10)
  else if 0x41 ≤ c ∧ c ≤ 0x46 then some (c.toNat - 0x41 + 10)
  else none

/-- The digits at the front, as a number behind `acc`, and the text behind them. -/
def scanDigits : Nat → List UInt8 → Nat × List UInt8
  | acc, [] => (acc, [])
  | acc, c :: cs =>
    match hexValue c with
    | some d => scanDigits (acc * 16 + d) cs
    | none => (acc, c :: cs)

/-- The sign at the front: whether it is a minus, and the text behind it. -/
def scanSign : List UInt8 → Bool × List UInt8
  | 0x2D :: cs => (true, cs)
  | 0x2B :: cs => (false, cs)
  | cs => (false, cs)

/-- The text behind a `0x` at the front. -/
def skipPrefix : List UInt8 → List UInt8
  | 0x30 :: 0x78 :: cs => cs
  | 0x30 :: 0x58 :: cs => cs
  | cs => cs

/-- `%x`: the number that is stored, and the text behind it. There has to be a digit. The number is
read as an `unsigned long`. -/
def scanX (text : List UInt8) : Option (UInt32 × List UInt8) :=
  let (negative, text) := scanSign (text.dropWhile isSpace)
  let text := skipPrefix text
  let (n, rest) := scanDigits 0 text
  if rest.length < text.length then
    let value := if n < 2 ^ 64 then (if negative then 2 ^ 64 - n else n) else 2 ^ 64 - 1
    some (UInt32.ofNat value, rest)
  else none

/-- `sscanf` for this number of `%x` with a colon between each two: the numbers that are stored. -/
def scanFields : Nat → List UInt8 → List UInt32
  | 0, _ => []
  | n + 1, text =>
    match scanX text with
    | none => []
    | some (x, 0x3A :: rest) => x :: scanFields n rest
    | some (x, _) => [x]

/-- The two statements that take the carry from `mac_calc[i]` to the next element. -/
def carry (i : Nat) (mac_calc : Nat → UInt32) : Nat → UInt32 :=
  let mac_calc := Function.update mac_calc (i + 1) (mac_calc (i + 1) + ((mac_calc i &&& 0x100) >>> 8))
  Function.update mac_calc i (mac_calc i &&& 0xff)

/-- The increment and its carries. -/
def increment (mac_calc : Nat → UInt32) : Nat → UInt32 :=
  carry 4 (carry 3 (carry 2 (carry 1 (carry 0 (Function.update mac_calc 0 (mac_calc 0 + 1))))))

/-- `"%02x"`. -/
def printX (x : UInt32) : List UInt8 := padZeros 2 (printNat 16 x.toNat)

/-- `"%02x:%02x:%02x:%02x:%02x:%02x"`. -/
def printMac (mac_calc : Nat → UInt32) : List UInt8 :=
  printX (mac_calc 5) ++ 0x3A :: (printX (mac_calc 4) ++ 0x3A :: (printX (mac_calc 3) ++
    0x3A :: (printX (mac_calc 2) ++ 0x3A :: (printX (mac_calc 1) ++ 0x3A :: printX (mac_calc 0)))))

/-- A round of the loop. -/
def round (mac : List UInt8) : Option (List UInt8) :=
  let fields := scanFields 6 (cStr mac)
  if fields.length ≠ 6 then none
  else
    -- The first number goes to `mac_calc[5]`, the last one to `mac_calc[0]`.
    let mac_calc := increment fun j => fields.getD (5 - j) 0
    if mac_calc 5 > 0xff then none else sprintf mac (printMac mac_calc)

end MacPlusPlus

/-! ### `mac_plus_plus_long_long.c` -/

namespace MacPlusPlusLongLong

/-- The value of `mac[i]`. -/
def load (mac : List UInt8) (i : Int) : Option UInt8 := if 0 ≤ i then mac[i.toNat]? else none

/-- `mac[i] = c`. -/
def store (mac : List UInt8) (i : Int) (c : UInt8) : Option (List UInt8) :=
  if 0 ≤ i ∧ i < mac.length then some (mac.set i.toNat c) else none

/-- `mac_space = mac_space << 4; mac_space += digit`. -/
def append (mac_space digit : Int) : Option Int := do
  let shifted ← int64 (mac_space * 16)
  int64 (shifted + digit)

/-- The body of the loop that reads the text. -/
def readRound (mac : List UInt8) (i : Nat) (mac_space : Int) : Option Int := do
  let c ← mac[i]?
  if 0x30 ≤ c ∧ c ≤ 0x39 then append mac_space (c.toNat - 0x30)
  else if 0x61 ≤ c ∧ c ≤ 0x66 then append mac_space (c.toNat - 0x61 + 10)
  else if 0x41 ≤ c ∧ c ≤ 0x46 then append mac_space (c.toNat - 0x41 + 10)
  else if c = 0x3A ∧ (i + 1) % 3 = 0 then some mac_space
  else none

/-- The body of the loop that spreads the digits. -/
def spreadRound (count : Int) (i : Nat) (mac : List UInt8) : Option (List UInt8) := do
  let c ← load mac (11 - i)
  let mac ← store mac (count - 1 - i - i / 2) c
  if i ≠ 0 ∧ i % 2 = 0 then store mac (count - i - i / 2) 0x3A else some mac

/-- The loop that spreads the digits, and the assignment behind it. -/
def spread (count : Int) (mac : List UInt8) : Option (List UInt8) := do
  let mac ← forUpM 0 (12 - 2) (spreadRound count) mac
  store mac (count - 10 - 10 / 2) 0x3A

/-- A round of `while(1)`. -/
def round (count : Int) (mac : List UInt8) : Option (List UInt8) := do
  let mac_space ← forUpM 0 (cStr mac).length (readRound mac) 0
  let mac_space ← int64 (mac_space + 1)
  let mac ← sprintf mac (padZeros 12 (printNat 16 (mac_space % 2 ^ 64).toNat))
  spread count mac

/-- The rounds for the text that is in the array at first. -/
def rounds (k : Nat) (mac : List UInt8) : Option (List UInt8) :=
  iterations (round (cStr mac).length) k mac

end MacPlusPlusLongLong

end LearnGit.ScanfReg
