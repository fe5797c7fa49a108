import LearnGit.Proofs.WideChar.JavascriptLine

/-!
# `LearnGit.Proofs.WideChar.JavascriptTransfer`: the paths of entries

A `Document` is a file of lines. `openClasses` are the classes that are open behind some lines, and
`spelled` are the names that the parser has put together: it forgets all of them at a closing brace,
and it takes an entry with an empty value for a class.

`fileParserLoad_text` says which nodes come of a file, and `keepsPaths_iff` when every entry has a
node in the list for the file, at its place and with the path of the classes that are open there.
-/

set_option autoImplicit false

namespace LearnGit.Proofs.WideChar.Javascript

open LearnGit.Lib
open LearnGit.WideChar
open LearnGit.WideChar.Javascript

/-! ### Documents -/

/-- The bytes of some lines. -/
def text (lines : List Line) : List Byte := lines.flatMap fun line => line.text ++ [NEWLINE]

/-- The classes that are open behind an item, the outermost first. -/
def openStep (names : List (List Byte)) : Item → List (List Byte)
  | .classColon name => names ++ [name]
  | .classEquals name => names ++ [name]
  | .close => names.dropLast
  | _ => names

/-- The names that the parser has put together behind an item. -/
def spellStep (names : List (List Byte)) : Item → List (List Byte)
  | .classColon name => names ++ [name]
  | .classEquals name => names ++ [name]
  | .entry name [] => names ++ [name]
  | .close => []
  | _ => names

def openClasses (lines : List Line) : List (List Byte) :=
  lines.foldl (fun names line => openStep names line.item) []

def spelled (lines : List Line) : List (List Byte) :=
  lines.foldl (fun names line => spellStep names line.item) []

/-- `C1.C2. ... .Ck`. -/
def joinPath (names : List (List Byte)) : List Byte := [DOT].intercalate names

/-- A file in which every closing brace closes a class, and the paths fit the buffer. -/
structure Document where
  lines : List Line
  nested : ∀ i < lines.length, lines[i]?.map Line.item = some .close →
    openClasses (lines.take i) ≠ []
  fits : ∀ i ≤ lines.length, (joinPath (openClasses (lines.take i))).length ≤ ASCIILINESZ ∧
    (joinPath (spelled (lines.take i))).length ≤ ASCIILINESZ

/-- The entry on a line adds a node with the path of the classes there to the nodes of the lines in
front of it, and the list for the whole file has it at that place. -/
def HasNode (doc : Document) (i : Nat) (name value : List Byte) : Prop :=
  ∃ nodes more, fileParserLoad (text (doc.lines.take i)) = .ok (some nodes) ∧
    fileParserLoad (text (doc.lines.take (i + 1)))
      = .ok (some (⟨joinPath (openClasses (doc.lines.take i)), name, strstrip value⟩ :: nodes)) ∧
    fileParserLoad (text doc.lines)
      = .ok (some (more ++
          ⟨joinPath (openClasses (doc.lines.take i)), name, strstrip value⟩ :: nodes))

/-- Every entry inside classes has a node with their path. -/
def KeepsPaths (doc : Document) : Prop :=
  ∀ i line name value, doc.lines[i]? = some line → line.item = .entry name value →
    openClasses (doc.lines.take i) ≠ [] → HasNode doc i name value

/-! ### Paths -/

/-- The path with a name more is the path, a dot and the name. -/
theorem joinPath_concat {names : List (List Byte)} (hne : names ≠ []) (name : List Byte) :
    joinPath (names ++ [name]) = joinPath names ++ [DOT] ++ name := by
  induction names with
  | nil => exact absurd rfl hne
  | cons first names ih =>
    cases names with
    | nil =>
      rw [joinPath, joinPath, List.singleton_append, List.intercalate_cons_cons,
        List.intercalate_singleton, List.intercalate_singleton]
    | cons second names =>
      have hrest := ih (List.cons_ne_nil _ _)
      rw [joinPath] at hrest ⊢
      rw [List.cons_append, List.intercalate_cons_of_ne_nil (by simp), hrest, joinPath, joinPath,
        List.intercalate_cons_of_ne_nil (List.cons_ne_nil second names)]
      simp only [List.append_assoc]

/-- A path of names that are not empty is not empty. -/
theorem joinPath_ne_nil {names : List (List Byte)} (hne : names ≠ [])
    (hnames : ∀ name ∈ names, name ≠ []) : joinPath names ≠ [] := by
  cases names with
  | nil => exact absurd rfl hne
  | cons first names =>
    have hfirst := hnames first List.mem_cons_self
    cases names with
    | nil => simpa [joinPath] using hfirst
    | cons second names => simp [joinPath, List.intercalate_cons_cons]

/-- The length of a path with a dot behind it. -/
def weight (names : List (List Byte)) : Nat := (names.map fun name => name.length + 1).sum

/-- The weights of two lists of names add up. -/
theorem weight_append (names more : List (List Byte)) :
    weight (names ++ more) = weight names + weight more := by
  rw [weight, List.map_append, List.sum_append, weight, weight]

/-- Only the empty list of names weighs nothing. -/
theorem eq_nil_of_weight {names : List (List Byte)} (h : weight names = 0) : names = [] := by
  cases names with
  | nil => rfl
  | cons name names =>
    rw [weight, List.map_cons, List.sum_cons] at h
    omega

/-- The bytes of a path. -/
theorem length_joinPath {names : List (List Byte)} (hne : names ≠ []) :
    (joinPath names).length + 1 = weight names := by
  induction names using List.reverseRecOn with
  | nil => exact absurd rfl hne
  | append_singleton names name ih =>
    by_cases hnames : names = []
    · rw [hnames]
      simp [joinPath, weight]
    · rw [joinPath_concat hnames, weight_append, ← ih hnames]
      simp [weight]
      omega

/-- `addClass` puts a name behind the path. -/
theorem addClass_joinPath {names : List (List Byte)} (hnames : ∀ name ∈ names, name ≠ [])
    {name : List Byte} (hfits : (joinPath (names ++ [name])).length ≤ ASCIILINESZ) :
    addClass (joinPath names) name = .ok (joinPath (names ++ [name])) := by
  have hpath : (if joinPath names = [] then [] else joinPath names ++ [DOT]) ++ name
      = joinPath (names ++ [name]) := by
    by_cases hne : names = []
    · rw [hne]
      simp [joinPath]
    · rw [if_neg (joinPath_ne_nil hne hnames), joinPath_concat hne]
  rw [addClass, hpath]
  exact if_neg (by omega)

/-! ### The nodes of a file -/

/-- The node of an item behind these names, if there is one. -/
def entryNode (names : List (List Byte)) : Item → List ParserNode
  | .entry name value =>
    if value = [] ∨ names = [] then [] else [⟨joinPath names, name, strstrip value⟩]
  | _ => []

/-- The nodes behind some lines, the last one first. -/
def runNodes (names : List (List Byte)) (nodes : List ParserNode) : List Line → List ParserNode
  | [] => nodes
  | line :: lines =>
    runNodes (spellStep names line.item) (entryNode names line.item ++ nodes) lines

/-- The nodes of a text are those of its first part and, from the path spelled there, those of its
second. -/
theorem runNodes_append (names : List (List Byte)) (nodes : List ParserNode)
    (front back : List Line) :
    runNodes names nodes (front ++ back)
      = runNodes (front.foldl (fun names line => spellStep names line.item) names)
          (runNodes names nodes front) back := by
  induction front generalizing names nodes with
  | nil => rfl
  | cons line front ih => exact ih _ _

/-- The nodes of some lines stay in the list behind the next ones. -/
theorem exists_runNodes (names : List (List Byte)) (nodes : List ParserNode) (lines : List Line) :
    ∃ more, runNodes names nodes lines = more ++ nodes := by
  induction lines generalizing names nodes with
  | nil => exact ⟨[], rfl⟩
  | cons line lines ih =>
    obtain ⟨more, hmore⟩ := ih (spellStep names line.item) (entryNode names line.item ++ nodes)
    exact ⟨more ++ entryNode names line.item, by rw [runNodes, hmore, List.append_assoc]⟩

/-- A name that is not empty keeps every name of the path so. -/
theorem concat_ne {names : List (List Byte)} (hnames : ∀ name ∈ names, name ≠ [])
    {new : List Byte} (hnew : new ≠ []) : ∀ name ∈ names ++ [new], name ≠ [] := by
  intro name hname
  rcases List.mem_append.mp hname with hname | hname
  · exact hnames name hname
  · rwa [List.mem_singleton.mp hname]

/-- The names that are put together are not empty. -/
theorem spellStep_ne {names : List (List Byte)} (hnames : ∀ name ∈ names, name ≠ []) {item : Item}
    (h : item.Ok) : ∀ name ∈ spellStep names item, name ≠ [] := by
  cases item with
  | blank => exact hnames
  | comment second text => exact hnames
  | classColon name => exact concat_ne hnames h.ne
  | classEquals name => exact concat_ne hnames h.ne
  | entry name value =>
    cases value with
    | nil => exact concat_ne hnames h.1.ne
    | cons c value => exact hnames
  | close => exact fun name hname => absurd hname List.not_mem_nil

/-- One item: the names and the nodes behind it. -/
theorem loadLine_item {names : List (List Byte)} (hnames : ∀ name ∈ names, name ≠ [])
    (nodes : List ParserNode) {line : List Byte} {l : Layout} {item : Item} (h : item.Ok)
    (hline : strstrip line = item.body l)
    (hfits : (joinPath (spellStep names item)).length ≤ ASCIILINESZ) :
    loadLine ⟨[], joinPath names, nodes⟩ line
      = .ok ⟨[], joinPath (spellStep names item), entryNode names item ++ nodes⟩ := by
  rw [loadLine, hline, Item.lineStatus_body l h]
  cases item with
  | blank => rfl
  | comment second text => rfl
  | classColon name =>
    simp only [Item.status, addClass_joinPath hnames hfits]
    rfl
  | classEquals name =>
    simp only [Item.status, addClass_joinPath hnames hfits]
    rfl
  | entry name value =>
    cases value with
    | nil =>
      simp only [Item.status, if_pos, addClass_joinPath hnames hfits]
      rfl
    | cons c value =>
      by_cases hne : names = []
      · rw [hne]
        rfl
      · simp [Item.status, entryNode, spellStep, hne, joinPath_ne_nil hne hnames]
  | close => rfl

/-- One line: the loop goes on behind it. -/
theorem loadLoop_line {names : List (List Byte)} (hnames : ∀ name ∈ names, name ≠ [])
    (nodes : List ParserNode) (line : Line)
    (hfits : (joinPath (spellStep names line.item)).length ≤ ASCIILINESZ) (calls : Nat)
    (rest : List Byte) :
    loadLoop (calls + 1) ⟨[], joinPath names, nodes⟩ (line.text ++ NEWLINE :: rest)
      = loadLoop calls
          ⟨[], joinPath (spellStep names line.item), entryNode names line.item ++ nodes⟩ rest := by
  have hchunk := fgets_line (fun h => (line.mem_text _ h).2 rfl) line.short rest
  have hline := loadLine_item hnames nodes line.ok
    ((strstrip_rdropWhile _).trans line.strstrip_text) hfits
  have hlast : ¬((line.text ++ [NEWLINE]).getLast? ≠ some NEWLINE ∧ ¬(rest = [] ∧
      (line.text ++ [NEWLINE]).length < ASCIILINESZ - 1 ∧ NEWLINE ∉ line.text ++ [NEWLINE])) := by
    simp
  rw [loadLoop, if_neg (by simp)]
  simp only [List.length_nil, Nat.sub_zero, hchunk, List.nil_append, line.cStr_text, if_neg hlast]
  by_cases hshort : (line.text ++ [NEWLINE]).length ≤ 1
  · -- A newline alone is skipped before it is parsed.
    have hnil : line.text = [] := by
      rw [List.length_append, List.length_singleton] at hshort
      exact List.length_eq_zero_iff.mp (by omega)
    have hblank : line.item = .blank := by
      have hbody := line.strstrip_text
      rw [hnil] at hbody
      exact Item.eq_blank hbody.symm
    rw [if_pos hshort, hblank]
    rfl
  · have htail : (fun c : Byte => decide (c = NEWLINE) || decide (c = BLANK)) = isTail := rfl
    rw [if_neg hshort, htail, if_neg line.getLast?_cut, hline]

/-- The names behind some lines fit `class_name`. -/
def Fits (names : List (List Byte)) (lines : List Line) : Prop :=
  ∀ i ≤ lines.length, (joinPath ((lines.take i).foldl
    (fun names line => spellStep names line.item) names)).length ≤ ASCIILINESZ

/-- The text of lines begins with the first line and its newline. -/
theorem text_cons (line : Line) (lines : List Line) :
    text (line :: lines) = line.text ++ NEWLINE :: text lines := by
  rw [text, List.flatMap_cons, List.append_assoc, List.singleton_append, text]

/-- The run over all lines. -/
theorem loadLoop_text (lines : List Line) :
    ∀ names nodes calls, (∀ name ∈ names, name ≠ []) → Fits names lines → lines.length ≤ calls →
      loadLoop calls ⟨[], joinPath names, nodes⟩ (text lines)
        = .ok (some (runNodes names nodes lines)) := by
  induction lines with
  | nil =>
    intro names nodes calls _ _ _
    cases calls <;> rfl
  | cons line lines ih =>
    intro names nodes calls hnames hfits hcalls
    rw [List.length_cons] at hcalls
    obtain ⟨calls, rfl⟩ : ∃ m, calls = m + 1 := ⟨calls - 1, by omega⟩
    have hfirst : (joinPath (spellStep names line.item)).length ≤ ASCIILINESZ :=
      hfits 1 (by rw [List.length_cons]; omega)
    rw [text_cons, loadLoop_line hnames nodes line hfirst]
    refine ih _ _ calls (spellStep_ne hnames line.ok) (fun i hi => ?_) (by omega)
    exact hfits (i + 1) (by rw [List.length_cons]; omega)

/-- The text has a character for every line at least. -/
theorem length_le_text (lines : List Line) : lines.length ≤ (text lines).length := by
  induction lines with
  | nil => exact Nat.le_refl 0
  | cons line lines ih =>
    rw [text_cons, List.length_append, List.length_cons, List.length_cons]
    omega

/-- The nodes of a file. -/
theorem fileParserLoad_text {lines : List Line} (hfits : Fits [] lines) :
    fileParserLoad (text lines) = .ok (some (runNodes [] [] lines)) :=
  loadLoop_text lines [] [] _ (fun _ h => absurd h List.not_mem_nil) hfits (length_le_text lines)

/-! ### The path that is spelled and the path of the classes -/

/-- A first part of a document fits into the buffers as the document does. -/
theorem Document.fits_take (doc : Document) (i : Nat) : Fits [] (doc.lines.take i) := by
  intro j hj
  rw [List.take_take]
  rw [List.length_take] at hj
  exact (doc.fits (min j i) (by omega)).2

/-- The open classes are followed on from those of the first part. -/
theorem openClasses_append (front back : List Line) :
    openClasses (front ++ back)
      = back.foldl (fun names line => openStep names line.item) (openClasses front) := by
  rw [openClasses, List.foldl_append, openClasses]

/-- The spelled path is followed on from that of the first part. -/
theorem spelled_append (front back : List Line) :
    spelled (front ++ back)
      = back.foldl (fun names line => spellStep names line.item) (spelled front) := by
  rw [spelled, List.foldl_append, spelled]

/-- A well formed line opens no class without a name. -/
theorem openStep_ne {names : List (List Byte)} (hnames : ∀ name ∈ names, name ≠ []) {item : Item}
    (h : item.Ok) : ∀ name ∈ openStep names item, name ≠ [] := by
  cases item with
  | blank => exact hnames
  | comment second text => exact hnames
  | classColon name => exact concat_ne hnames h.ne
  | classEquals name => exact concat_ne hnames h.ne
  | entry name value => exact hnames
  | close => exact fun name hname => hnames name (List.mem_of_mem_dropLast hname)

/-- No open class is without a name. -/
theorem openClasses_ne (lines : List Line) : ∀ name ∈ openClasses lines, name ≠ [] := by
  induction lines using List.reverseRecOn with
  | nil => exact fun _ h => absurd h List.not_mem_nil
  | append_singleton lines line ih =>
    rw [openClasses_append]
    exact openStep_ne ih line.ok

/-- Behind the lines in front of it, a line adds its node, if it has one. -/
theorem runNodes_take_succ {lines : List Line} {i : Nat} {line : Line}
    (hline : lines[i]? = some line) :
    runNodes [] [] (lines.take (i + 1))
      = entryNode (spelled (lines.take i)) line.item ++ runNodes [] [] (lines.take i) := by
  rw [List.take_add_one, hline, Option.toList_some, runNodes_append]
  rfl

/-- The lines behind a first part of the file only put nodes in front. -/
theorem Document.exists_nodes (doc : Document) (i : Nat) :
    ∃ more, fileParserLoad (text doc.lines)
      = .ok (some (more ++ runNodes [] [] (doc.lines.take i))) := by
  have hwhole := fileParserLoad_text (doc.fits_take doc.lines.length)
  rw [List.take_length] at hwhole
  obtain ⟨more, hmore⟩ := exists_runNodes (spelled (doc.lines.take i))
    (runNodes [] [] (doc.lines.take i)) (doc.lines.drop i)
  refine ⟨more, ?_⟩
  rw [hwhole, ← hmore]
  conv_lhs => rw [← List.take_append_drop i doc.lines, runNodes_append]
  rfl

/-- An entry inside classes has the right node where it has a value and the parser has put the path
of the classes together. -/
theorem hasNode_iff (doc : Document) {i : Nat} {line : Line} {name value : List Byte}
    (hline : doc.lines[i]? = some line) (hitem : line.item = .entry name value)
    (hopen : openClasses (doc.lines.take i) ≠ []) :
    HasNode doc i name value ↔ value ≠ [] ∧
      joinPath (spelled (doc.lines.take i)) = joinPath (openClasses (doc.lines.take i)) := by
  have hpath := joinPath_ne_nil hopen (openClasses_ne _)
  have hnext := runNodes_take_succ hline
  rw [hitem] at hnext
  rw [HasNode, fileParserLoad_text (doc.fits_take i), fileParserLoad_text (doc.fits_take (i + 1)),
    hnext]
  constructor
  · rintro ⟨nodes, -, hnodes, h, -⟩
    injection hnodes with hnodes
    injection hnodes with hnodes
    injection h with h
    injection h with h
    rw [entryNode, hnodes] at h
    split at h
    case isTrue => exact absurd (List.nil_append _ ▸ h) (List.cons_ne_self _ _).symm
    case isFalse hnode =>
      rw [List.singleton_append] at h
      injection h with hfirst
      injection hfirst with hpaths
      exact ⟨(not_or.mp hnode).1, hpaths⟩
  · rintro ⟨hvalue, hspelled⟩
    have hne : spelled (doc.lines.take i) ≠ [] := by
      intro hnil
      rw [hnil] at hspelled
      exact hpath hspelled.symm
    have hnode : entryNode (spelled (doc.lines.take i)) (.entry name value)
        = [⟨joinPath (openClasses (doc.lines.take i)), name, strstrip value⟩] := by
      rw [entryNode, if_neg (not_or.mpr ⟨hvalue, hne⟩), hspelled]
    obtain ⟨more, hmore⟩ := doc.exists_nodes (i + 1)
    rw [hnext, hnode] at hmore
    rw [hnode]
    exact ⟨_, more, rfl, rfl, hmore⟩

/-! ### When every entry keeps its path -/

/-- The class that an item opens. -/
def Item.opened : Item → List (List Byte)
  | .classColon name => [name]
  | .classEquals name => [name]
  | _ => []

/-- The name of an entry without a value. -/
def Item.unvalued : Item → List (List Byte)
  | .entry name [] => [name]
  | _ => []

/-- A line that closes nothing adds the class it opens. -/
theorem openStep_eq {item : Item} (h : item ≠ .close) (names : List (List Byte)) :
    openStep names item = names ++ item.opened := by
  cases item <;> simp [openStep, Item.opened] at h ⊢

/-- A line that closes nothing adds the names it leaves in the buffer to the weight of the path. -/
theorem spellStep_weight {item : Item} (h : item ≠ .close) (names : List (List Byte)) :
    weight (spellStep names item) = weight names + weight item.opened + weight item.unvalued := by
  cases item with
  | close => exact absurd rfl h
  | entry name value =>
    cases value <;> simp [spellStep, Item.opened, Item.unvalued, weight]
  | _ => simp [spellStep, Item.opened, Item.unvalued, weight]

/-- Where no class is closed, the open classes only grow. -/
theorem foldl_openStep {back : List Line} (h : ∀ line ∈ back, line.item ≠ .close) :
    ∀ names, back.foldl (fun names line => openStep names line.item) names
      = names ++ back.flatMap (·.item.opened) := by
  induction back with
  | nil =>
    intro names
    rw [List.foldl_nil, List.flatMap_nil, List.append_nil]
  | cons line back ih =>
    intro names
    rw [List.foldl_cons, openStep_eq (h line List.mem_cons_self),
      ih (fun l hl => h l (List.mem_cons_of_mem _ hl)), List.flatMap_cons, List.append_assoc]

/-- Where no class is closed, the parser adds the classes and the entries without a value. -/
theorem foldl_spellStep_weight {back : List Line} (h : ∀ line ∈ back, line.item ≠ .close) :
    ∀ names, weight (back.foldl (fun names line => spellStep names line.item) names)
      = weight names + weight (back.flatMap (·.item.opened))
          + weight (back.flatMap (·.item.unvalued)) := by
  induction back with
  | nil =>
    intro names
    rfl
  | cons line back ih =>
    intro names
    rw [List.foldl_cons, ih (fun l hl => h l (List.mem_cons_of_mem _ hl)),
      spellStep_weight (h line List.mem_cons_self), List.flatMap_cons, List.flatMap_cons,
      weight_append, weight_append]
    omega

/-- Without entries that have no value, the parser follows the classes that are opened. -/
theorem foldl_spellStep_eq {back : List Line}
    (h : ∀ line ∈ back, line.item ≠ .close ∧ ∀ name, line.item ≠ .entry name []) :
    ∀ names, back.foldl (fun names line => spellStep names line.item) names
      = back.foldl (fun names line => openStep names line.item) names := by
  induction back with
  | nil =>
    intro names
    rfl
  | cons line back ih =>
    intro names
    have hstep : spellStep names line.item = openStep names line.item := by
      obtain ⟨hclose, hentry⟩ := h line List.mem_cons_self
      cases hitem : line.item with
      | close => exact absurd hitem hclose
      | entry name value =>
        cases value with
        | nil => exact absurd hitem (hentry name)
        | cons c value => rfl
      | _ => rfl
    rw [List.foldl_cons, List.foldl_cons, hstep]
    exact ih (fun l hl => h l (List.mem_cons_of_mem _ hl)) _

/-- Nothing stands in these lines, or the last of them closes a class. -/
def EndsClosed (front : List Line) : Prop :=
  front = [] ∨ front.getLast?.map Line.item = some .close

/-- The last closing brace in these lines, if there is one, closes an outermost class, and no entry
behind it is without a value. -/
def FreshPath (lines : List Line) : Prop :=
  ∃ front back, lines = front ++ back ∧ EndsClosed front ∧ openClasses front = [] ∧
    ∀ line ∈ back, line.item ≠ .close ∧ ∀ name, line.item ≠ .entry name []

/-- The parser forgets the path at every closing brace. -/
theorem EndsClosed.spelled_eq {front : List Line} (h : EndsClosed front) : spelled front = [] := by
  rcases h with rfl | h
  · rfl
  · obtain ⟨line, hline, hitem⟩ := Option.map_eq_some_iff.mp h
    obtain ⟨lines, rfl⟩ := List.getLast?_eq_some_iff.mp hline
    rw [spelled_append, List.foldl_cons, List.foldl_nil, hitem]
    rfl

/-- The lines behind the last closing brace. -/
theorem exists_endsClosed (lines : List Line) :
    ∃ front back, lines = front ++ back ∧ EndsClosed front ∧ ∀ line ∈ back, line.item ≠ .close := by
  induction lines using List.reverseRecOn with
  | nil => exact ⟨[], [], rfl, .inl rfl, fun _ h => absurd h List.not_mem_nil⟩
  | append_singleton lines line ih =>
    obtain ⟨front, back, hlines, hfront, hback⟩ := ih
    by_cases hclose : line.item = .close
    · refine ⟨lines ++ [line], [], by simp, .inr ?_, fun _ h => absurd h List.not_mem_nil⟩
      rw [List.getLast?_concat, Option.map_some, hclose]
    · refine ⟨front, back ++ [line], by rw [hlines, List.append_assoc], hfront, fun l hl => ?_⟩
      rcases List.mem_append.mp hl with hl | hl
      · exact hback l hl
      · rwa [List.mem_singleton.mp hl]

/-- Where the path stays fresh the spelled names are the open classes. -/
theorem FreshPath.spelled_eq {lines : List Line} (h : FreshPath lines) :
    spelled lines = openClasses lines := by
  obtain ⟨front, back, rfl, hfront, hopen, hback⟩ := h
  rw [spelled_append, openClasses_append, hfront.spelled_eq, hopen, foldl_spellStep_eq hback]

/-- Only an entry with an empty value leaves its name in the buffer. -/
theorem Item.unvalued_eq_nil {item : Item} :
    item.unvalued = [] ↔ ∀ name, item ≠ .entry name [] := by
  constructor
  · rintro h name rfl
    exact List.cons_ne_nil _ _ h
  · intro h
    cases item with
    | entry name value =>
      cases value with
      | nil => exact absurd rfl (h name)
      | cons c value => rfl
    | _ => rfl

/-- A path that is put together rightly has forgotten no class, where no entry inside a class is
without a value. -/
theorem freshPath_of_joinPath {lines : List Line} (hopen : openClasses lines ≠ [])
    (hpath : joinPath (spelled lines) = joinPath (openClasses lines))
    (hvalues : ∀ front line back name, lines = front ++ line :: back → openClasses front ≠ [] →
      line.item ≠ .entry name []) : FreshPath lines := by
  -- The parser has begun anew behind the last closing brace.
  obtain ⟨front, back, rfl, hfront, hback⟩ := exists_endsClosed lines
  have hspelled : spelled (front ++ back) ≠ [] := by
    intro hnil
    rw [hnil] at hpath
    exact joinPath_ne_nil hopen (openClasses_ne _) hpath.symm
  -- The two paths have one length, so the classes that were forgotten weigh as much as the entries
  -- that were added.
  have hweight : weight (openClasses front) = weight (back.flatMap (·.item.unvalued)) := by
    have hlen := (length_joinPath hspelled).symm.trans (hpath ▸ length_joinPath hopen)
    rw [spelled_append, foldl_spellStep_weight hback, hfront.spelled_eq, openClasses_append,
      foldl_openStep hback, weight_append] at hlen
    have hnil : weight [] = 0 := rfl
    omega
  have hfree : openClasses front ≠ [] → back.flatMap (·.item.unvalued) = [] := by
    intro hne
    refine List.flatMap_eq_nil_iff.mpr fun line hline => ?_
    obtain ⟨b₁, b₂, rfl⟩ := List.append_of_mem hline
    refine Item.unvalued_eq_nil.mpr fun name => hvalues (front ++ b₁) line b₂ name (by simp) ?_
    rw [openClasses_append, foldl_openStep fun l hl => hback l (by simp [hl])]
    simp [hne]
  have hclosed : openClasses front = [] := by
    by_contra hne
    rw [hfree hne] at hweight
    exact hne (eq_nil_of_weight hweight)
  rw [hclosed] at hweight
  have hnone := List.flatMap_eq_nil_iff.mp (eq_nil_of_weight hweight.symm)
  refine ⟨front, back, rfl, hfront, hclosed, fun line hline => ⟨hback line hline, ?_⟩⟩
  exact Item.unvalued_eq_nil.mp (hnone line hline)

/-- Every entry has a node with the path of its classes if and only if each entry inside classes has a value,
and the last closing brace in front of it closed an outermost class, with no entry since then that
has no value. -/
theorem keepsPaths_iff (doc : Document) :
    KeepsPaths doc ↔ ∀ i line name value, doc.lines[i]? = some line →
      line.item = .entry name value → openClasses (doc.lines.take i) ≠ [] →
        value ≠ [] ∧ FreshPath (doc.lines.take i) := by
  constructor
  · intro h i line name value hline hitem hopen
    obtain ⟨hvalue, hpath⟩ :=
      (hasNode_iff doc hline hitem hopen).mp (h i line name value hline hitem hopen)
    refine ⟨hvalue, freshPath_of_joinPath hopen hpath ?_⟩
    -- An entry without a value in front of this one would have lost its own node.
    intro front line' back name' hsplit hopen' hitem'
    have hlines : doc.lines = front ++ line' :: (back ++ doc.lines.drop i) := by
      conv_lhs => rw [← List.take_append_drop i doc.lines, hsplit]
      rw [List.append_assoc, List.cons_append]
    have htake : doc.lines.take front.length = front := by
      rw [hlines]
      exact List.take_left
    have hline' : doc.lines[front.length]? = some line' := by
      rw [hlines, List.getElem?_append_right (Nat.le_refl _), Nat.sub_self]
      rfl
    rw [← htake] at hopen'
    have hnode := h front.length line' name' [] hline' hitem' hopen'
    exact ((hasNode_iff doc hline' hitem' hopen').mp hnode).1 rfl
  · intro h i line name value hline hitem hopen
    obtain ⟨hvalue, hfresh⟩ := h i line name value hline hitem hopen
    exact (hasNode_iff doc hline hitem hopen).mpr ⟨hvalue, by rw [hfresh.spelled_eq]⟩

/-- No blanks, commas or semicolons. -/
def plain : Layout where
  indent := []
  gap := []
  gap' := []
  junk := []
  back := []
  indentOk := by simp
  gapOk := by simp
  gapOk' := by simp
  junkOk := by simp
  backOk := by simp

/-- One letter is a name. -/
theorem nameOk_letter {c : Byte} (h : isSpace c = false ∧ c ≠ 0 ∧ c ≠ NEWLINE ∧ c ≠ COLON ∧
    c ≠ EQUALS ∧ c ≠ RIGHT_BRACE ∧ c ≠ SLASH) : NameOk [c] := by
  obtain ⟨hspace, h0, h1, h2, h3, h4, h5⟩ := h
  refine ⟨List.cons_ne_nil _ _, ⟨?_, ?_⟩, ?_, ?_⟩ <;> simp_all

/-- `A: {`, `B: {`, `}`, `x: 'v'`, `}`. -/
def innerClosed : Document where
  lines := [
    ⟨plain, .classColon [0x41], nameOk_letter (by decide), by decide⟩,
    ⟨plain, .classColon [0x42], nameOk_letter (by decide), by decide⟩,
    ⟨plain, .close, trivial, by decide⟩,
    ⟨plain, .entry [0x78] [0x76],
      ⟨nameOk_letter (by decide), List.forall_mem_singleton.mpr (by decide)⟩, by decide⟩,
    ⟨plain, .close, trivial, by decide⟩]
  nested := by decide
  fits := by decide

/-- The entry behind the inner class has lost the outer one. -/
theorem innerClosed_loses_path : ¬KeepsPaths innerClosed := by
  intro h
  have hopen : openClasses (innerClosed.lines.take 3) ≠ [] := by decide
  have hnode := (hasNode_iff innerClosed rfl rfl hopen).mp (h 3 _ _ _ rfl rfl hopen)
  exact absurd hnode.2 (by decide)

end LearnGit.Proofs.WideChar.Javascript
