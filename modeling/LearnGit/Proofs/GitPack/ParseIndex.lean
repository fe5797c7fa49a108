import LearnGit.GitPack.ParseIndex

/-!
# `LearnGit.Proofs.GitPack.ParseIndex`: which indexes pass the check

`Consistent` says what an index has to be. The check of `parse_index.c` never looks at the size of
the file, so that it may read behind it, and it keeps the number of names with one first byte in an
`int`. `parseIndex_judges_iff` says for which files it is right all the same.

Each loop has a lemma that says which way it ends: `fanoutLoop_eq`, `namesLoop_eq` and
`bucketsLoop_eq`.
-/

set_option autoImplicit false

namespace LearnGit.Proofs.GitPack

open LearnGit.Lib
open LearnGit.GitPack

variable (file : List UInt8)

/-! ### Indexes -/

/-- The `i`-th number of the table. -/
def fanout (i : Nat) : Nat := bigEndian file (TABLE + 4 * i)

/-- The number in front of the `i`-th one. -/
def prevFanout : Nat → Nat
  | 0 => 0
  | i + 1 => fanout file i

/-- The number of names. -/
def total : Nat := fanout file 255

/-- The offset of a name. -/
def nameOffset (k : Nat) : Nat := NAMES + NAME_SIZE * k

/-- The first byte of a name. -/
def firstByte (k : Nat) : Nat := (file.getD (nameOffset k) 0).toNat

/-- The name is where the table says that names with its first byte are. -/
def InPlace (k : Nat) : Prop :=
  prevFanout file (firstByte file k) ≤ k ∧ k < fanout file (firstByte file k)

/-- An index that holds its table and its names, with a table that does not decrease and names
where it says. -/
structure Consistent : Prop where
  table : NAMES ≤ file.length
  names : NAMES + NAME_SIZE * total file ≤ file.length
  mono : ∀ i, i + 1 < 256 → fanout file i ≤ fanout file (i + 1)
  inPlace : ∀ k < total file, InPlace file k

/-- The check reads nothing behind the file, and a file passes it exactly when it is consistent. -/
def Judges : Prop :=
  parseIndex file ≠ .error .outside ∧ (parseIndex file = .ok () ↔ Consistent file)

/-! ### The table -/

/-- The table decreases at some number from the `i`-th on that is still in the file. -/
def DecreasesFrom (i : Nat) : Prop :=
  ∃ j, i ≤ j ∧ j < 256 ∧ TABLE + 4 * j + 4 ≤ file.length ∧ fanout file j < prevFanout file j

/-- The entries of `entry_table` from the `i`-th on. -/
def entriesFrom (left i : Nat) : List Int :=
  (List.range' i left).map fun j => toInt32 (fanout file j - prevFanout file j)

variable {file}

/-- A number that is not less than the one before is no decrease. -/
theorem decreasesFrom_succ_iff {i : Nat} (h : prevFanout file i ≤ fanout file i) :
    DecreasesFrom file (i + 1) ↔ DecreasesFrom file i := by
  constructor
  · rintro ⟨j, hj, hrest⟩
    exact ⟨j, by omega, hrest⟩
  · rintro ⟨j, hj, hlt, hin, hdec⟩
    rcases Nat.lt_or_eq_of_le hj with hlt' | rfl
    · exact ⟨j, hlt', hlt, hin, hdec⟩
    · omega

/-- The first entry. -/
theorem entriesFrom_succ (left i : Nat) :
    entriesFrom file (left + 1) i
      = toInt32 (fanout file i - prevFanout file i) :: entriesFrom file left (i + 1) := by
  rw [entriesFrom, List.range'_succ, List.map_cons]
  rfl

open Classical in
/-- What the loop over the table returns. -/
theorem fanoutLoop_eq (file : List UInt8) (left i : Nat) (hi : i + left = 256) :
    fanoutLoop file left i (prevFanout file i)
      = if DecreasesFrom file i then .error .err
        else if left = 0 ∨ NAMES ≤ file.length then .ok (entriesFrom file left i)
        else .error .outside := by
  induction left generalizing i with
  | zero =>
    have hno : ¬DecreasesFrom file i := by
      rintro ⟨j, hj, hlt, -⟩
      omega
    rw [if_neg hno, if_pos (.inl rfl)]
    rfl
  | succ left ih =>
    have hnames : NAMES = TABLE + 4 * 255 + 4 := rfl
    by_cases hin : TABLE + 4 * i + 4 ≤ file.length
    · have hread : ntohl file i = .ok (fanout file i) := if_pos hin
      by_cases hdec : fanout file i < prevFanout file i
      · rw [fanoutLoop, hread, if_pos ⟨i, Nat.le_refl i, by omega, hin, hdec⟩]
        exact if_pos hdec
      · have hle : prevFanout file i ≤ fanout file i := by omega
        have hend : (left = 0 ∨ NAMES ≤ file.length) ↔ (left + 1 = 0 ∨ NAMES ≤ file.length) := by
          omega
        have hnext := ih (i + 1) (by omega)
        rw [prevFanout] at hnext
        rw [fanoutLoop, hread]
        show (if prevFanout file i > fanout file i then Except.error Stop.err else _) = _
        rw [if_neg hdec, hnext, decreasesFrom_succ_iff hle, entriesFrom_succ]
        by_cases hlater : DecreasesFrom file i
        · rw [if_pos hlater, if_pos hlater]
        · rw [if_neg hlater, if_neg hlater]
          by_cases hlen : left + 1 = 0 ∨ NAMES ≤ file.length
          · rw [if_pos hlen, if_pos (hend.mpr hlen)]
          · rw [if_neg hlen, if_neg (hend.not.mpr hlen)]
    · have hread : ntohl file i = .error .outside := if_neg hin
      have hno : ¬DecreasesFrom file i := by
        rintro ⟨j, hj, -, hin', -⟩
        omega
      rw [fanoutLoop, hread, if_neg hno, if_neg (by omega)]

/-! ### The names -/

/-- One of the names from the `a`-th to the one before the `b`-th is in the file and not in its
place. -/
def MisplacedIn (file : List UInt8) (a b : Nat) : Prop :=
  ∃ k, a ≤ k ∧ k < b ∧ nameOffset k < file.length ∧ ¬InPlace file k

/-- The first bytes of these names are in the file. -/
def NamesInside (file : List UInt8) (a b : Nat) : Prop :=
  ∀ k, a ≤ k → k < b → nameOffset k < file.length

/-- No name is between equal numbers. -/
theorem not_misplacedIn_self (a : Nat) : ¬MisplacedIn file a a := by
  rintro ⟨k, hk, hlt, -⟩
  omega

/-- No name is between equal numbers. -/
theorem namesInside_self (a : Nat) : NamesInside file a a := by
  intro k hk hlt
  omega

/-- Names side by side. -/
theorem misplacedIn_append {a b c : Nat} (hab : a ≤ b) (hbc : b ≤ c) :
    MisplacedIn file a c ↔ MisplacedIn file a b ∨ MisplacedIn file b c := by
  constructor
  · rintro ⟨k, hk, hlt, hrest⟩
    rcases Nat.lt_or_ge k b with hkb | hkb
    · exact .inl ⟨k, hk, hkb, hrest⟩
    · exact .inr ⟨k, hkb, hlt, hrest⟩
  · rintro (⟨k, hk, hlt, hrest⟩ | ⟨k, hk, hlt, hrest⟩)
    · exact ⟨k, hk, by omega, hrest⟩
    · exact ⟨k, by omega, hlt, hrest⟩

/-- Names side by side. -/
theorem namesInside_append {a b c : Nat} (hab : a ≤ b) (hbc : b ≤ c) :
    NamesInside file a c ↔ NamesInside file a b ∧ NamesInside file b c := by
  constructor
  · intro h
    exact ⟨fun k hk hlt => h k hk (by omega), fun k hk hlt => h k (by omega) hlt⟩
  · rintro ⟨hleft, hright⟩ k hk hlt
    rcases Nat.lt_or_ge k b with hkb | hkb
    · exact hleft k hk hkb
    · exact hright k hkb hlt

/-- The names are in their order in the file. -/
theorem nameOffset_lt_iff (k l : Nat) : nameOffset k < nameOffset l ↔ k < l := by
  simp only [nameOffset, NAME_SIZE]
  omega

/-- Behind a name that is not in the file there is none. -/
theorem not_misplacedIn_of_not_inside {a b c : Nat} (h : ¬NamesInside file a b) :
    ¬MisplacedIn file b c := by
  rintro ⟨k, hk, -, hin, -⟩
  refine h fun k' _ hlt => ?_
  have := (nameOffset_lt_iff k' k).mpr (by omega)
  omega

open Classical in
/-- The loop over names that are in their places when their first byte is `i`. -/
theorem namesLoop_eq (file : List UInt8) (i count a : Nat)
    (hplace : ∀ k, a ≤ k → k < a + count → (InPlace file k ↔ firstByte file k = i)) :
    namesLoop file i count (nameOffset a)
      = if MisplacedIn file a (a + count) then .error .err
        else if NamesInside file a (a + count) then .ok (nameOffset (a + count))
        else .error .outside := by
  induction count generalizing a with
  | zero =>
    rw [Nat.add_zero, if_neg (not_misplacedIn_self a), if_pos (namesInside_self a)]
    rfl
  | succ count ih =>
    have hnext := ih (a + 1) fun k hk hlt => hplace k (by omega) (by omega)
    rw [show a + 1 + count = a + (count + 1) by omega] at hnext
    have hoffset : nameOffset a + NAME_SIZE = nameOffset (a + 1) := by
      rw [nameOffset, nameOffset, Nat.mul_add, Nat.mul_one, Nat.add_assoc]
    rw [namesLoop, misplacedIn_append (b := a + 1) (by omega) (by omega),
      namesInside_append (b := a + 1) (by omega) (by omega), hoffset]
    by_cases hin : nameOffset a < file.length
    · have hread : file[nameOffset a]? = some (file.getD (nameOffset a) 0) := by
        rw [List.getElem?_eq_getElem hin, List.getD_eq_getElem _ _ hin]
      have hinside : NamesInside file a (a + 1) := by
        intro k hk hlt
        obtain rfl : k = a := by omega
        exact hin
      rw [hread]
      show (if firstByte file a ≠ i then Except.error Stop.err else _) = _
      by_cases hbyte : firstByte file a = i
      · have hno : ¬MisplacedIn file a (a + 1) := by
          rintro ⟨k, hk, hlt, -, hmis⟩
          obtain rfl : k = a := by omega
          exact hmis ((hplace k hk (by omega)).mpr hbyte)
        rw [if_neg (not_not.mpr hbyte), hnext, or_iff_right hno, and_iff_right hinside]
      · have hmis : MisplacedIn file a (a + 1) :=
          ⟨a, Nat.le_refl a, by omega, hin, fun h => hbyte ((hplace a (by omega) (by omega)).mp h)⟩
        rw [if_pos hbyte, if_pos (.inl hmis)]
    · have hread : file[nameOffset a]? = none := List.getElem?_eq_none (by omega)
      have hout : ¬NamesInside file a (a + 1) := fun h => hin (h a (Nat.le_refl a) (by omega))
      have hno : ¬MisplacedIn file a (a + 1) := by
        rintro ⟨k, hk, hlt, hin', -⟩
        obtain rfl : k = a := by omega
        exact hin hin'
      rw [hread, or_iff_right hno, if_neg (not_misplacedIn_of_not_inside hout),
        if_neg fun h => hout h.1]

/-! ### The buckets -/

/-- The numbers of the table do not decrease. -/
def Monotone (file : List UInt8) : Prop := ∀ i < 256, prevFanout file i ≤ fanout file i

/-- The numbers of a table that does not decrease. -/
theorem prevFanout_le_prevFanout (hmono : Monotone file) {i j : Nat} (hij : i ≤ j) (hj : j ≤ 256) :
    prevFanout file i ≤ prevFanout file j := by
  induction j, hij using Nat.le_induction with
  | base => exact Nat.le_refl _
  | succ j hij ih => exact Nat.le_trans (ih (by omega)) (hmono j (by omega))

/-- The names of a bucket are in their places when their first byte is its number. -/
theorem inPlace_iff (hmono : Monotone file) {i k : Nat} (hi : i < 256)
    (hlow : prevFanout file i ≤ k) (hhigh : k < fanout file i) :
    InPlace file k ↔ firstByte file k = i := by
  have hbyte : firstByte file k < 256 := UInt8.toNat_lt _
  constructor
  · rintro ⟨hlow', hhigh'⟩
    by_contra hne
    rcases Nat.lt_or_gt_of_ne hne with hlt | hgt
    · have hle : prevFanout file (firstByte file k + 1) ≤ prevFanout file i :=
        prevFanout_le_prevFanout hmono hlt (by omega)
      rw [prevFanout] at hle
      omega
    · have hle : prevFanout file (i + 1) ≤ prevFanout file (firstByte file k) :=
        prevFanout_le_prevFanout hmono hgt (by omega)
      rw [prevFanout] at hle
      omega
  · intro heq
    rw [InPlace, heq]
    exact ⟨hlow, hhigh⟩

/-- A bucket with more names than an `int` counts. -/
def Huge (file : List UInt8) (i : Nat) : Prop := 2 ^ 31 ≤ fanout file i - prevFanout file i

instance Huge.decidable (file : List UInt8) (i : Nat) : Decidable (Huge file i) :=
  inferInstanceAs (Decidable (2 ^ 31 ≤ _))

/-- The names in front of the first bucket from the `i`-th on that is too large, or all of them. -/
def reachFrom (file : List UInt8) : Nat → Nat → Nat
  | 0, i => prevFanout file i
  | left + 1, i => if Huge file i then prevFanout file i else reachFrom file left (i + 1)

/-- One of the buckets from the `i`-th on is too large. -/
def HugeFrom (file : List UInt8) (i : Nat) : Prop := ∃ j, i ≤ j ∧ j < 256 ∧ Huge file j

/-- A number has four bytes. -/
theorem fanout_lt (file : List UInt8) (i : Nat) : fanout file i < 2 ^ 32 := by
  have hbyte : ∀ k, (file.getD k 0).toNat < 256 := fun k => UInt8.toNat_lt _
  have h₀ := hbyte (TABLE + 4 * i)
  have h₁ := hbyte (TABLE + 4 * i + 1)
  have h₂ := hbyte (TABLE + 4 * i + 2)
  have h₃ := hbyte (TABLE + 4 * i + 3)
  rw [fanout, bigEndian]
  omega

/-- The entry of a bucket that is too large is negative. -/
theorem toInt32_of_huge {i : Nat} (h : Huge file i) :
    toInt32 (fanout file i - prevFanout file i) < 0 := by
  have hlt := fanout_lt file i
  rw [Huge] at h
  rw [toInt32, BitVec.toInt_eq_toNat_cond, BitVec.toNat_ofNat, Nat.mod_eq_of_lt (by omega),
    if_neg (by omega)]
  omega

/-- The names in front of a bucket are looked at. -/
theorem prevFanout_le_reachFrom (hmono : Monotone file) (left i : Nat) (hi : i + left = 256) :
    prevFanout file i ≤ reachFrom file left i := by
  induction left generalizing i with
  | zero => exact Nat.le_refl _
  | succ left ih =>
    rw [reachFrom]
    split
    · exact Nat.le_refl _
    · exact Nat.le_trans (hmono i (by omega)) (ih (i + 1) (by omega))

/-- A bucket that is not too large is passed. -/
theorem hugeFrom_succ {file : List UInt8} {i : Nat} (h : ¬Huge file i) :
    HugeFrom file (i + 1) ↔ HugeFrom file i := by
  constructor
  · rintro ⟨j, hj, hrest⟩
    exact ⟨j, by omega, hrest⟩
  · rintro ⟨j, hj, hlt, hhuge⟩
    refine ⟨j, ?_, hlt, hhuge⟩
    rcases Nat.lt_or_eq_of_le hj with hnext | rfl
    · exact hnext
    · exact absurd hhuge h

open Classical in
/-- What the loop over the buckets returns. -/
theorem bucketsLoop_eq (hmono : Monotone file) (left i : Nat) (hi : i + left = 256) :
    bucketsLoop file (entriesFrom file left i) i (nameOffset (prevFanout file i))
      = if MisplacedIn file (prevFanout file i) (reachFrom file left i) then .error .err
        else if NamesInside file (prevFanout file i) (reachFrom file left i) then
          if HugeFrom file i then .error .err else .ok ()
        else .error .outside := by
  induction left generalizing i with
  | zero =>
    have hno : ¬HugeFrom file i := by
      rintro ⟨j, hj, hlt, -⟩
      omega
    rw [reachFrom, if_neg (not_misplacedIn_self _), if_pos (namesInside_self _), if_neg hno]
    rfl
  | succ left ih =>
    have hlt : i < 256 := by omega
    rw [entriesFrom_succ, bucketsLoop, reachFrom]
    by_cases hhuge : Huge file i
    · -- The inner loop has no round, and the number of its rounds is not the entry.
      have hneg := toInt32_of_huge hhuge
      have hcount : (toInt32 (fanout file i - prevFanout file i)).toNat = 0 := by omega
      have hfrom : HugeFrom file i := ⟨i, Nat.le_refl i, hlt, hhuge⟩
      rw [if_pos hhuge, if_neg (not_misplacedIn_self _), if_pos (namesInside_self _),
        if_pos hfrom, hcount]
      exact if_neg (by omega)
    · have hle := hmono i hlt
      have hentry : toInt32 (fanout file i - prevFanout file i)
          = ((fanout file i - prevFanout file i : Nat) : Int) := toInt32_of_lt (by
        rw [Huge] at hhuge
        omega)
      have hend : prevFanout file i + (fanout file i - prevFanout file i)
          = prevFanout file (i + 1) := by
        rw [prevFanout]
        omega
      have hnames := namesLoop_eq file i (fanout file i - prevFanout file i)
        (prevFanout file i) fun k hk hlt' => inPlace_iff hmono hlt hk (by omega)
      have hfirst : prevFanout file i ≤ prevFanout file (i + 1) := hle
      have hsecond := prevFanout_le_reachFrom hmono left (i + 1) (by omega)
      rw [hend] at hnames
      rw [if_neg hhuge, hentry, Int.toNat_natCast, hnames, misplacedIn_append hfirst hsecond,
        namesInside_append hfirst hsecond]
      by_cases hmis : MisplacedIn file (prevFanout file i) (prevFanout file (i + 1))
      · rw [if_pos hmis, if_pos (.inl hmis)]
      · rw [if_neg hmis, or_iff_right hmis]
        by_cases hin : NamesInside file (prevFanout file i) (prevFanout file (i + 1))
        · rw [if_pos hin, and_iff_right hin, ← hugeFrom_succ hhuge]
          exact (if_pos rfl).trans (ih (i + 1) (by omega))
        · rw [if_neg hin, if_neg (not_misplacedIn_of_not_inside hin), if_neg fun h => hin h.1]

/-! ### The whole check -/

/-- How many names the check looks at, when they are in their places. -/
def reach (file : List UInt8) : Nat := reachFrom file 256 0

/-- The whole table is in the file, so that no decrease is missed. -/
theorem monotone_of_not_decreases (hlen : NAMES ≤ file.length) (h : ¬DecreasesFrom file 0) :
    Monotone file := by
  intro i hi
  by_contra hlt
  have hnames : NAMES = TABLE + 4 * 255 + 4 := rfl
  exact h ⟨i, Nat.zero_le i, hi, by omega, by omega⟩

/-- The table of a consistent index does not decrease. -/
theorem Consistent.not_decreases (h : Consistent file) : ¬DecreasesFrom file 0 := by
  rintro ⟨j, -, hj, -, hdec⟩
  cases j with
  | zero => exact absurd hdec (Nat.not_lt_zero _)
  | succ j =>
    have hle := h.mono j hj
    rw [prevFanout] at hdec
    omega

/-- No more names are looked at than there are. -/
theorem reachFrom_le_total (hmono : Monotone file) {left i : Nat} (hi : i + left = 256) :
    reachFrom file left i ≤ total file := by
  induction left generalizing i with
  | zero =>
    obtain rfl : i = 256 := hi
    exact Nat.le_refl _
  | succ left ih =>
    rw [reachFrom]
    split
    · exact prevFanout_le_prevFanout hmono (j := 256) (by omega) (Nat.le_refl _)
    · exact ih (i := i + 1) (by omega)

/-- All names are looked at where no bucket is too large. -/
theorem reachFrom_eq_total {left i : Nat} (hi : i + left = 256) (h : ¬HugeFrom file i) :
    reachFrom file left i = total file := by
  induction left generalizing i with
  | zero =>
    obtain rfl : i = 256 := hi
    rfl
  | succ left ih =>
    have hhuge : ¬Huge file i := fun hhuge => h ⟨i, Nat.le_refl i, by omega, hhuge⟩
    rw [reachFrom, if_neg hhuge]
    refine ih (i := i + 1) (by omega) ?_
    rintro ⟨j, hj, hrest⟩
    exact h ⟨j, by omega, hrest⟩

open Classical in
/-- The way the check ends. -/
theorem parseIndex_eq (hne : file ≠ []) :
    parseIndex file
      = if DecreasesFrom file 0 then .error .err
        else if NAMES ≤ file.length then
          if MisplacedIn file 0 (reach file) then .error .err
          else if NamesInside file 0 (reach file) then
            if HugeFrom file 0 then .error .err else .ok ()
          else .error .outside
        else .error .outside := by
  rw [parseIndex, if_neg hne]
  by_cases hhead : file.length < TABLE
  · have hno : ¬DecreasesFrom file 0 := by
      rintro ⟨j, -, -, hin, -⟩
      omega
    have hlen : ¬NAMES ≤ file.length := by
      have hnames : NAMES = TABLE + 4 * 255 + 4 := rfl
      omega
    rw [if_pos hhead, if_neg hno, if_neg hlen]
  · have htable := fanoutLoop_eq file 256 0 rfl
    rw [prevFanout] at htable
    rw [if_neg hhead, htable]
    by_cases hdec : DecreasesFrom file 0
    · rw [if_pos hdec, if_pos hdec]
    · rw [if_neg hdec, if_neg hdec]
      by_cases hlen : NAMES ≤ file.length
      · rw [if_pos (.inr hlen), if_pos hlen]
        exact bucketsLoop_eq (monotone_of_not_decreases hlen hdec) 256 0 rfl
      · rw [if_neg (by omega), if_neg hlen]

/-- When the check is right about a file: the file is empty; the table decreases in the file; a
name that is looked at and is in the file is not in its place; all names are in the file and no
bucket is too large; or a bucket is too large, the names in front of it are in the file, and the
file is not consistent for another reason. -/
def Judgeable (file : List UInt8) : Prop :=
  file = [] ∨ DecreasesFrom file 0 ∨
    NAMES ≤ file.length ∧
      (MisplacedIn file 0 (reach file)
        ∨ (¬HugeFrom file 0 ∧ NAMES + NAME_SIZE * total file ≤ file.length)
        ∨ (HugeFrom file 0 ∧ NamesInside file 0 (reach file) ∧
          (file.length < NAMES + NAME_SIZE * total file ∨ ∃ k < total file, ¬InPlace file k)))

/-- With a right table, an index is consistent when its names are in the file and in their places.
-/
theorem consistent_iff (hlen : NAMES ≤ file.length) (hmono : Monotone file) :
    Consistent file ↔
      NAMES + NAME_SIZE * total file ≤ file.length ∧ ∀ k < total file, InPlace file k := by
  constructor
  · intro h
    exact ⟨h.names, h.inPlace⟩
  · rintro ⟨hnames, hplace⟩
    exact ⟨hlen, hnames, fun i hi => hmono (i + 1) hi, hplace⟩

/-- An error is right about a file that is not consistent. -/
theorem judges_of_stop {stop : Stop} (h : parseIndex file = .error stop) (hstop : stop ≠ .outside) :
    Judges file ↔ ¬Consistent file := by
  rw [Judges, h]
  constructor
  · rintro ⟨-, hiff⟩ hcons
    exact absurd (hiff.mpr hcons) (by simp)
  · intro hnot
    refine ⟨fun heq => hstop (Except.error.inj heq), fun heq => ?_, fun hcons => absurd hcons hnot⟩
    exact absurd heq (by simp)

/-- A read behind the file is never right. -/
theorem not_judges_of_outside (h : parseIndex file = .error .outside) : ¬Judges file :=
  fun hjudges => hjudges.1 h

/-- A file that passes has to be consistent. -/
theorem judges_of_ok (h : parseIndex file = .ok ()) : Judges file ↔ Consistent file := by
  rw [Judges, h]
  constructor
  · rintro ⟨-, hiff⟩
    exact hiff.mp rfl
  · intro hcons
    exact ⟨by simp, iff_of_true rfl hcons⟩

/-- The check is right about a file whose table does not decrease under the same conditions. -/
theorem judges_iff_of_monotone (hne : file ≠ []) (hdec : ¬DecreasesFrom file 0)
    (hlen : NAMES ≤ file.length) :
    Judges file ↔ MisplacedIn file 0 (reach file)
      ∨ (¬HugeFrom file 0 ∧ NAMES + NAME_SIZE * total file ≤ file.length)
      ∨ (HugeFrom file 0 ∧ NamesInside file 0 (reach file) ∧
        (file.length < NAMES + NAME_SIZE * total file ∨ ∃ k < total file, ¬InPlace file k)) := by
  have hmono := monotone_of_not_decreases hlen hdec
  have hreach : reach file ≤ total file := reachFrom_le_total hmono rfl
  have hrun := parseIndex_eq hne
  rw [if_neg hdec, if_pos hlen] at hrun
  by_cases hmis : MisplacedIn file 0 (reach file)
  · rw [if_pos hmis] at hrun
    rw [judges_of_stop hrun (by decide)]
    refine iff_of_true (fun hcons => ?_) (.inl hmis)
    obtain ⟨k, -, hk, -, hplace⟩ := hmis
    exact hplace (hcons.inPlace k (by omega))
  · rw [if_neg hmis] at hrun
    rw [or_iff_right hmis]
    by_cases hhuge : HugeFrom file 0
    · rw [if_pos hhuge] at hrun
      rw [and_iff_right hhuge, or_iff_right fun h => h.1 hhuge]
      by_cases hin : NamesInside file 0 (reach file)
      · rw [if_pos hin] at hrun
        rw [judges_of_stop hrun (by decide), and_iff_right hin, consistent_iff hlen hmono,
          not_and_or, not_forall]
        simp only [not_le, Classical.not_imp]
      · rw [if_neg hin] at hrun
        exact iff_of_false (not_judges_of_outside hrun) fun h => hin h.1
    · have htotal : reach file = total file := reachFrom_eq_total rfl hhuge
      rw [if_neg hhuge] at hrun
      rw [and_iff_right hhuge, or_iff_left fun h => hhuge h.1]
      by_cases hin : NamesInside file 0 (reach file)
      · rw [if_pos hin] at hrun
        rw [judges_of_ok hrun, consistent_iff hlen hmono]
        refine and_iff_left fun k hk => ?_
        by_contra hplace
        exact hmis ⟨k, Nat.zero_le k, by omega, hin k (Nat.zero_le k) (by omega), hplace⟩
      · rw [if_neg hin] at hrun
        refine iff_of_false (not_judges_of_outside hrun) fun hlong => hin fun k _ hk => ?_
        simp only [nameOffset, NAME_SIZE] at hlong ⊢
        omega

/-- The check reads nothing behind the file and passes exactly the consistent indexes under these
conditions, and under no others. -/
theorem parseIndex_judges_iff (file : List UInt8) : Judges file ↔ Judgeable file := by
  by_cases hne : file = []
  · have hrun : parseIndex file = .error .mapFailed := if_pos hne
    rw [judges_of_stop hrun (by decide)]
    refine iff_of_true (fun hcons => ?_) (.inl hne)
    have hlen := hcons.table
    rw [hne] at hlen
    exact absurd hlen (by decide)
  · rw [Judgeable, or_iff_right hne]
    by_cases hdec : DecreasesFrom file 0
    · have hrun := parseIndex_eq hne
      rw [if_pos hdec] at hrun
      rw [judges_of_stop hrun (by decide)]
      exact iff_of_true (fun hcons => hcons.not_decreases hdec) (.inl hdec)
    · rw [or_iff_right hdec]
      by_cases hlen : NAMES ≤ file.length
      · rw [and_iff_right hlen]
        exact judges_iff_of_monotone hne hdec hlen
      · have hrun := parseIndex_eq hne
        rw [if_neg hdec, if_neg hlen] at hrun
        exact iff_of_false (not_judges_of_outside hrun) fun h => hlen h.1

/-- A file that ends behind its header. -/
theorem not_judges_header : ¬Judges [0xff, 0x74, 0x4f, 0x63, 0, 0, 0, 2] := by
  refine not_judges_of_outside ?_
  decide

end LearnGit.Proofs.GitPack
