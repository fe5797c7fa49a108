import LearnGit.Uart.App.ImageBooks
import LearnGit.Proofs.Uart.ImageTransfer

/-!
# `LearnGit.Proofs.Uart.ImageBooks`: the missing images are counted, but not announced

`image_books_iff` is about every history of scans and items. Where `to_gui_image` is set,
`blf_files_num` is the number of requests for BLF images that have not been answered, and the GUI is
started at an image exactly when that number becomes 0. An image that is named twice counts as two,
so this is the number of missing images only as long as no image is asked for twice. No image is ever
announced to the GUI, and a scan for an image whose name is not safe stores outside of an array. So
what is expected of a history holds exactly as long as none of the three happens.
-/

set_option autoImplicit false

namespace LearnGit.Proofs.Uart

open LearnGit.Lib
open LearnGit.Uart.Link (Byte)
open LearnGit.Uart.App

/-! ### Statement -/

/-- The counter, and the start of the GUI, by the requests. -/
structure CountsOk (s : Books) : Prop where
  counted : s.board.blfFilesNum = s.requests.length
  started : ∀ name, s.done = some name → (.startGui ∈ s.notices ↔ s.requests = [])

/-- What is expected behind every event of a history: the counter and the start of the GUI by the
images that are missing, and that each image is announced. -/
structure BooksOk (gui : ImageGui) (s : Books) : Prop where
  defined : s.life ≠ .undefined
  counted : s.board.blfFilesNum = s.pending.length
  started : ∀ name, s.done = some name → (.startGui ∈ s.notices ↔ s.pending = [])
  told : ∀ name, s.done = some name → gui.toGuiImage = true → s.notices.count (.image name) = 1

/-- The images that a scan of the BLF directory asks for, by their names. -/
def scanNames (env : Env) (s : Books) (content : List Byte) : List Path :=
  (scanAsks env s.board.files BLF_IMAGES_PATH content).map cString

/-- A scan asks for images with safe names, and for no image that is pending or twice. No item ends
the transfer of a BLF image. -/
def StepOk (s : Books) : ImageEvent → Prop
  | .scan env content =>
    (∀ name ∈ scanAsks env s.board.files BLF_IMAGES_PATH content, SafeName name) ∧
      (s.pending ++ scanNames env s content).Nodup
  | .item _ aImage => completesBlf s.board aImage = none
  | .files _ => True

/-! ### Scans -/

/-- What a scan asks for is read off what it has given to `link_send`. -/
theorem asked_eq {imageDir : Path} {flag : Byte} {names : List (List Byte)} {b b' : Board}
    (h : AskedFor imageDir flag names b b') : asked b b' = names.map cString := by
  rw [asked, h.linkOut, List.drop_left, List.map_map]
  rfl

/-- A scan stores outside of an array, or it adds its requests to the books. -/
theorem scanStep_cases (env : Env) (s : Books) (content : List Byte) :
    (¬(∀ name ∈ scanAsks env s.board.files BLF_IMAGES_PATH content, SafeName name) ∧
        (scanStep env s content).life = .undefined) ∨
      (∀ name ∈ scanAsks env s.board.files BLF_IMAGES_PATH content, SafeName name) ∧
        ∃ b', b'.blfFilesNum = s.board.blfFilesNum + (scanNames env s content).length ∧
          scanStep env s content = { s with
            board := b'
            requests := s.requests ++ scanNames env s content
            pending := (s.pending ++ scanNames env s content).dedup
            done := none
            notices := [] } := by
  have hscan := imagesCheckAndUpdate_yields env s.board content BLF_IMAGES_PATH 0x01
  rw [scanStep]
  cases hat : imagesCheckAndUpdate env s.board content BLF_IMAGES_PATH 0x01 with
  | none =>
    rw [hat] at hscan
    exact .inl ⟨hscan, rfl⟩
  | some r =>
    obtain ⟨b', ret⟩ := r
    rw [hat] at hscan
    obtain ⟨hsafe, b₁, hasked, hend⟩ := hscan
    -- The callback at the end of a scan changes only files.
    have hboard : b'.linkOut = b₁.linkOut ∧ b'.blfFilesNum = b₁.blfFilesNum := by
      rcases hend with rfl | rfl
      · exact ⟨rfl, rfl⟩
      · exact ⟨rfl, rfl⟩
    have hnames : asked s.board b' = scanNames env s content := by
      rw [asked, hboard.1]
      exact asked_eq hasked
    refine .inr ⟨hsafe, b', ?_, by simp only [hnames]⟩
    rw [hboard.2, hasked.counted, if_pos rfl, scanNames, List.length_map]

/-! ### Items -/

/-- The counter of all missing images, which is used until the board is set up. -/
def countAbsence (b : Board) : Board :=
  if b.initFlag < 0 then
    { b with
      filesAbsence := b.filesAbsence - 1
      initFlag := if b.filesAbsence - 1 = 0 then 1 else b.initFlag }
  else b

/-- Counting an absence leaves the number of missing files. -/
theorem countAbsence_blf (b : Board) : (countAbsence b).blfFilesNum = b.blfFilesNum := by
  rw [countAbsence]
  split <;> rfl

/-- The GUI is started by a BLF image exactly where `arrivedNotices` has the call. -/
theorem countArrived_startGui (env : Env) (gui : ImageGui) (b : Board) :
    countArrived env gui b 0x01
      = let b' := { countAbsence b with blfFilesNum := b.blfFilesNum - 1 }
        if .startGui ∈ arrivedNotices b 0x01 then b'.callGui env .startGui else b' := by
  have hnum := countAbsence_blf b
  rw [countAbsence] at hnum
  simp only [countArrived, arrivedNotices, countAbsence, if_true, true_and, hnum]
  by_cases hlast : b.blfFilesNum - 1 = 0
  · simp only [hlast, if_true, List.mem_singleton]
  · simp only [hlast, if_false, List.not_mem_nil]

/-- The counter when an image has come. -/
theorem countArrived_blf (env : Env) (gui : ImageGui) (b : Board) (flagCl : Byte) :
    (countArrived env gui b flagCl).blfFilesNum
      = if flagCl = 0x01 then b.blfFilesNum - 1 else b.blfFilesNum := by
  by_cases hflag : flagCl = 0x01
  · rw [hflag, countArrived_startGui, if_pos rfl]
    dsimp only
    split
    · rfl
    · rfl
  · -- The other counter is lowered, or none.
    obtain ⟨b', hb'⟩ : ∃ b' : Board, b' = countAbsence b := ⟨_, rfl⟩
    rw [if_neg hflag, ← countAbsence_blf b, ← hb']
    rw [countAbsence] at hb'
    simp only [countArrived, if_neg hflag, ← hb']
    split
    · split
      · rfl
      · rfl
    · rfl

/-- The files when the last item of an image has been handled. -/
def renamed (b : Board) (path swname : Path) : Files := ((b.unlink path).files.rename swname path).1

/-- Where the file is renamed the image has arrived, unless the message to the GUI kills the
program. -/
theorem finishImage_ok {b : Board} {path swname : Path}
    (h : ((b.unlink path).files.rename swname path).2 = 0) (env : Env) (gui : ImageGui)
    (flagCl : Byte) :
    finishImage env gui b flagCl path swname
      = if gui.toGuiImage then
          .returned (countArrived env gui { b with files := renamed b path swname } flagCl) 0
        else .killed { b with files := renamed b path swname } := by
  simp only [finishImage, h, ne_eq, not_true_eq_false, if_false]
  rfl

/-- Where the file is not renamed the image has not arrived. -/
theorem finishImage_fails {b : Board} {path swname : Path}
    (h : ((b.unlink path).files.rename swname path).2 ≠ 0) (env : Env) (gui : ImageGui)
    (flagCl : Byte) :
    finishImage env gui b flagCl path swname
      = .returned { b with files := renamed b path swname } (-2) := by
  simp only [finishImage, h, ne_eq, not_false_eq_true, if_true]
  rfl

/-- `handle_ack_req_image` at the end of an image. -/
theorem handleAckReqImage_completes {b : Board} {aImage : AckImage} {name : Path} {flagCl : Byte}
    (h : completes b aImage = some (name, flagCl)) (env : Env) (gui : ImageGui) :
    flagCl = aImage.flagCl ∧ ∃ files, handleAckReqImage env gui b aImage
      = if gui.toGuiImage then .returned (countArrived env gui { b with files := files } flagCl) 0
        else .killed { b with files := files } := by
  rw [completes] at h
  rw [handleAckReqImage]
  cases hdir : imageDir aImage.flagCl with
  | none =>
    rw [hdir] at h
    cases h
  | some dir =>
    rw [hdir] at h
    dsimp only at h ⊢
    split at h
    case isTrue hend =>
      obtain ⟨hflag, hrename⟩ := hend
      obtain ⟨-, hcl⟩ := Prod.mk.inj (Option.some.inj h)
      rw [hflag, if_neg (by decide), if_neg (by decide), if_pos rfl, hcl]
      exact ⟨rfl, _, finishImage_ok hrename env gui flagCl⟩
    case isFalse => cases h

/-- `handle_ack_req_image` elsewhere changes only files. -/
theorem handleAckReqImage_none {b : Board} {aImage : AckImage} (h : completes b aImage = none)
    (env : Env) (gui : ImageGui) :
    ∃ files ret, handleAckReqImage env gui b aImage = .returned { b with files := files } ret := by
  rw [completes] at h
  rw [handleAckReqImage]
  cases hdir : imageDir aImage.flagCl with
  | none => exact ⟨_, _, rfl⟩
  | some dir =>
    rw [hdir] at h
    dsimp only at h ⊢
    split
    · exact ⟨_, _, rfl⟩
    · split
      · split
        · exact ⟨_, _, rfl⟩
        · exact ⟨_, _, rfl⟩
      · split
        case isTrue hflag =>
          rw [hflag] at h
          have hrename : ((b.unlink (inDir dir (cString aImage.imageName))).files.rename
              (inDir dir (cString aImage.imageName) ++ cstr ".sw")
              (inDir dir (cString aImage.imageName))).2 ≠ 0 := by
            intro hzero
            rw [if_pos ⟨rfl, hzero⟩] at h
            cases h
          exact ⟨_, _, finishImage_fails hrename env gui _⟩
        case isFalse => exact ⟨_, _, rfl⟩

/-! ### Events -/

/-- An answer completes a BLF image exactly where it completes an image with the flag 1. -/
theorem completesBlf_eq_some {b : Board} {aImage : AckImage} {name : Path} :
    completesBlf b aImage = some name ↔ completes b aImage = some (name, 0x01) := by
  rw [completesBlf]
  cases completes b aImage with
  | none => simp
  | some r =>
    obtain ⟨name', flagCl⟩ := r
    dsimp only
    split
    case isTrue hflag => simp [hflag]
    case isFalse hflag => simp [hflag]

/-- An item that ends no BLF image leaves the counter alone. -/
theorem blf_of_none {b : Board} {aImage : AckImage} (h : completesBlf b aImage = none) (env : Env)
    (gui : ImageGui) : (handleAckReqImage env gui b aImage).board.blfFilesNum = b.blfFilesNum := by
  cases hdone : completes b aImage with
  | none =>
    obtain ⟨files, ret, heq⟩ := handleAckReqImage_none hdone env gui
    rw [heq]
    rfl
  | some r =>
    obtain ⟨name, flagCl⟩ := r
    obtain ⟨-, files, heq⟩ := handleAckReqImage_completes hdone env gui
    have hflag : ¬flagCl = 0x01 := by
      rintro rfl
      rw [completesBlf_eq_some.mpr hdone] at h
      cases h
    rw [heq]
    split
    · exact (countArrived_blf env gui _ flagCl).trans (if_neg hflag)
    · rfl

/-- What the end of a BLF image does to the counter, and the calls it makes. -/
theorem blf_of_some {b : Board} {aImage : AckImage} {name : Path}
    (h : completesBlf b aImage = some name) (env : Env) (gui : ImageGui) :
    (handleAckReqImage env gui b aImage).board.blfFilesNum
        = (if gui.toGuiImage then b.blfFilesNum - 1 else b.blfFilesNum) ∧
      ackImageNotices gui b aImage
        = (if gui.toGuiImage = true ∧ b.blfFilesNum - 1 = 0 then [.startGui] else []) := by
  have hdone := completesBlf_eq_some.mp h
  obtain ⟨-, files, heq⟩ := handleAckReqImage_completes hdone env gui
  rw [heq, ackImageNotices, hdone]
  cases hgui : gui.toGuiImage with
  | true =>
    refine ⟨(countArrived_blf env gui _ 0x01).trans (if_pos rfl), ?_⟩
    simp [coreToGuiImage, arrivedNotices]
  | false => exact ⟨rfl, rfl⟩

/-- What an event can be: a scan, an item that ends no BLF image, the end of a BLF image that was
requested, or a change of files. -/
theorem bookStep_cases {gui : ImageGui} {s s' : Books} {e : ImageEvent}
    (h : bookStep gui s e = some s') : s.life = .running ∧
    ((∃ env content, e = .scan env content ∧ s' = scanStep env s content) ∨
      (∃ env aImage, e = .item env aImage ∧ completesBlf s.board aImage = none ∧
        s' = itemStep env gui s aImage none) ∨
      (∃ env aImage name, e = .item env aImage ∧ completesBlf s.board aImage = some name ∧
        name ∈ s.requests ∧ s' = itemStep env gui s aImage (some name)) ∨
      ∃ files, e = .files files ∧
        s' = { s with board := { s.board with files := files }, done := none, notices := [] }) := by
  unfold bookStep at h
  split at h
  case isTrue => cases h
  case isFalse hrun =>
    refine ⟨not_not.mp hrun, ?_⟩
    cases e with
    | scan env content => exact .inl ⟨env, content, rfl, (Option.some.inj h).symm⟩
    | item env aImage =>
      dsimp only at h
      split at h
      case h_1 hnone => exact .inr (.inl ⟨env, aImage, rfl, hnone, (Option.some.inj h).symm⟩)
      case h_2 name hsome =>
        split at h
        case isTrue hmem =>
          exact .inr (.inr (.inl ⟨env, aImage, name, rfl, hsome, hmem, (Option.some.inj h).symm⟩))
        case isFalse => cases h
    | files files => exact .inr (.inr (.inr ⟨files, rfl, (Option.some.inj h).symm⟩))

/-! ### The books by the requests -/

/-- The end of a BLF image is counted and starts the GUI at the right time, where `to_gui_image` is
set. -/
theorem countsOk_itemStep {gui : ImageGui} (hgui : gui.toGuiImage = true) {s : Books}
    (hs : CountsOk s) {aImage : AckImage} {name : Path}
    (hdone : completesBlf s.board aImage = some name) (hmem : name ∈ s.requests) (env : Env) :
    CountsOk (itemStep env gui s aImage (some name)) := by
  obtain ⟨hnum, hnotices⟩ := blf_of_some hdone env gui
  have hlen : (s.requests.erase name).length + 1 = s.requests.length := by
    rw [List.length_erase_of_mem hmem]
    have := List.length_pos_of_mem hmem
    omega
  have hcount := hs.counted
  constructor
  · show (handleAckReqImage env gui s.board aImage).board.blfFilesNum
      = (s.requests.erase name).length
    rw [hnum, if_pos hgui]
    omega
  · -- The counter is lowered before it is tested, like the number of requests.
    intro _ _
    show .startGui ∈ ackImageNotices gui s.board aImage ↔ s.requests.erase name = []
    rw [hnotices, ← List.length_eq_zero_iff]
    split
    case isTrue hlast =>
      refine iff_of_true (List.mem_singleton_self _) ?_
      omega
    case isFalse hmore =>
      refine iff_of_false List.not_mem_nil fun hzero => hmore ⟨hgui, ?_⟩
      omega

/-- Every event keeps the books by the requests, where `to_gui_image` is set. -/
theorem countsOk_step {gui : ImageGui} (hgui : gui.toGuiImage = true) {s s' : Books}
    {e : ImageEvent} (hs : s.life ≠ .undefined → CountsOk s) (h : bookStep gui s e = some s') :
    s'.life ≠ .undefined → CountsOk s' := by
  obtain ⟨hlife, hcases⟩ := bookStep_cases h
  have hnow : CountsOk s := hs (by rw [hlife]; decide)
  rcases hcases with ⟨env, content, -, rfl⟩ | ⟨env, aImage, -, hnone, rfl⟩ |
    ⟨env, aImage, name, -, hdone, hmem, rfl⟩ | ⟨files, -, rfl⟩
  · rcases scanStep_cases env s content with ⟨-, hundefined⟩ | ⟨-, b', hnum, heq⟩
    · exact fun hdefined => absurd hundefined hdefined
    · intro _
      rw [heq]
      refine ⟨?_, nofun⟩
      dsimp only
      rw [hnum, hnow.counted, List.length_append, Nat.cast_add]
  · intro _
    exact ⟨(blf_of_none hnone env gui).trans hnow.counted, nofun⟩
  · intro _
    exact countsOk_itemStep hgui hnow hdone hmem env
  · intro _
    exact ⟨hnow.counted, nofun⟩

/-! ### The books by the images -/

/-- No image is asked for twice. -/
structure AskedOnce (s : Books) : Prop where
  requests : s.requests = s.pending
  nodup : s.pending.Nodup

/-- A list keeps its length without its duplicates exactly if it has none. -/
theorem length_dedup_iff {l : List Path} : l.dedup.length = l.length ↔ l.Nodup := by
  constructor
  · intro h
    exact List.dedup_eq_self.mp ((List.dedup_sublist l).eq_of_length h)
  · intro h
    rw [List.dedup_eq_self.mpr h]

/-- The end of a BLF image always goes wrong: where `to_gui_image` is set it is not called, and where
it is not set the process ends. -/
theorem not_booksOk_itemStep {gui : ImageGui} {s : Books} (hs : BooksOk gui s) {aImage : AckImage}
    {name : Path} (hdone : completesBlf s.board aImage = some name) (hmem : name ∈ s.pending)
    (env : Env) : ¬BooksOk gui (itemStep env gui s aImage (some name)) := by
  intro hok
  obtain ⟨hnum, hnotices⟩ := blf_of_some hdone env gui
  cases hgui : gui.toGuiImage with
  | true =>
    -- The calls are none, or the start of the GUI alone.
    have htold : (ackImageNotices gui s.board aImage).count (.image name) = 1 :=
      hok.told name rfl hgui
    rw [hnotices] at htold
    split at htold
    · exact absurd htold (by simp)
    · exact absurd htold (by simp)
  | false =>
    -- The null pointer is called before the counter is lowered.
    have hcount : (handleAckReqImage env gui s.board aImage).board.blfFilesNum
        = (s.pending.erase name).length := hok.counted
    rw [hnum, hgui, if_neg (by decide), hs.counted, List.length_erase_of_mem hmem] at hcount
    have := List.length_pos_of_mem hmem
    omega

/-- A scan keeps the books exactly if it asks for images with safe names, and for none twice. -/
theorem booksOk_scanStep {gui : ImageGui} {s : Books} (hs : BooksOk gui s) (honce : AskedOnce s)
    (env : Env) (content : List Byte) :
    (BooksOk gui (scanStep env s content) ↔ StepOk s (.scan env content)) ∧
      (StepOk s (.scan env content) → AskedOnce (scanStep env s content)) := by
  rcases scanStep_cases env s content with ⟨hrisky, hundefined⟩ | ⟨hsafe, b', hnum, heq⟩
  · exact ⟨iff_of_false (fun hok => hok.defined hundefined) fun hok => hrisky hok.1,
      fun hok => absurd hok.1 hrisky⟩
  · rw [heq]
    have hnodup : BooksOk gui { s with
          board := b'
          requests := s.requests ++ scanNames env s content
          pending := (s.pending ++ scanNames env s content).dedup
          done := none
          notices := [] }
        ↔ (s.pending ++ scanNames env s content).Nodup := by
      rw [← length_dedup_iff, List.length_append]
      have hcount := hs.counted
      constructor
      · intro hok
        have hcount' := hok.counted
        dsimp only at hcount'
        omega
      · intro hlen
        refine ⟨hs.defined, ?_, nofun, nofun⟩
        dsimp only
        omega
    refine ⟨hnodup.trans (and_iff_right hsafe).symm, fun hok => ⟨?_, List.nodup_dedup _⟩⟩
    dsimp only
    rw [List.dedup_eq_self.mpr hok.2, honce.requests]

/-- An item ends in a state of the process, whatever its handler does. -/
theorem itemStep_defined (env : Env) (gui : ImageGui) (s : Books) (aImage : AckImage)
    (done : Option Path) : (itemStep env gui s aImage done).life ≠ .undefined := by
  unfold itemStep
  dsimp only
  split
  · decide
  · decide

/-- What an event keeps of the books by the images, and when. -/
theorem booksOk_step {gui : ImageGui} {s s' : Books} {e : ImageEvent} (honce : AskedOnce s)
    (hs : BooksOk gui s) (h : bookStep gui s e = some s') :
    (BooksOk gui s' ↔ StepOk s e) ∧ (StepOk s e → AskedOnce s') := by
  rcases (bookStep_cases h).2 with ⟨env, content, rfl, rfl⟩ | ⟨env, aImage, rfl, hnone, rfl⟩ |
    ⟨env, aImage, name, rfl, hdone, hmem, rfl⟩ | ⟨files, rfl, rfl⟩
  · exact booksOk_scanStep hs honce env content
  · refine ⟨iff_of_true ⟨itemStep_defined env gui s aImage none,
      (blf_of_none hnone env gui).trans hs.counted, fun _ hdone => ?_, fun _ hdone => ?_⟩ hnone,
      fun _ => ⟨honce.requests, honce.nodup⟩⟩
    · cases hdone
    · cases hdone
  · have hpending : name ∈ s.pending := honce.requests ▸ hmem
    have hnot : ¬StepOk s (.item env aImage) := by
      intro hno
      rw [show completesBlf s.board aImage = none from hno] at hdone
      cases hdone
    exact ⟨iff_of_false (not_booksOk_itemStep hs hdone hpending env) hnot, fun hok => absurd hok hnot⟩
  · refine ⟨iff_of_true ⟨hs.defined, hs.counted, fun _ hdone => ?_, fun _ hdone => ?_⟩ trivial,
      fun _ => ⟨honce.requests, honce.nodup⟩⟩
    · cases hdone
    · cases hdone

/-! ### Histories -/

/-- Nothing has been asked for at the start. -/
theorem booksOk_init (gui : ImageGui) (start : Board) : BooksOk gui (bookMachine gui start).init where
  defined := by simp [bookMachine]
  counted := rfl
  started := by simp [bookMachine]
  told := by simp [bookMachine]

/-- In every history: where `to_gui_image` is set, the requests are counted and the GUI is started
when the last of them has been answered. All that is expected holds behind every event if and only if
no image comes to its end, every image that is asked for has a safe name and none is asked for
twice. -/
theorem image_books_iff (gui : ImageGui) (start : Board) (es : List ImageEvent) (s : Books)
    (h : (bookMachine gui start).exec es = some s) :
    (gui.toGuiImage = true →
        (bookMachine gui start).Always (fun t => t.life ≠ .undefined → CountsOk t) es) ∧
      ((bookMachine gui start).Always (BooksOk gui) es
        ↔ (bookMachine gui start).Run StepOk es s) := by
  constructor
  · intro hgui front _ t ht
    refine (Machine.Run.of_exec ht).invariant (I := fun t => t.life ≠ .undefined → CountsOk t)
      (fun _ => ⟨rfl, (booksOk_init gui start).started⟩) ?_
    intro _ _ _ _ hs hstep
    exact countsOk_step hgui hs hstep
  · refine Machine.always_iff_run (P := BooksOk gui) (I := AskedOnce)
      (booksOk_init gui start) ⟨rfl, List.nodup_nil⟩ ?_ h
    intro t e t' honce ht hstep
    exact booksOk_step honce ht hstep

/-- A GUI that has set its callback. -/
def readyGui : ImageGui := ⟨true, id⟩

/-- The scan of a description that has `Image="a_1">`. -/
def scanA : ImageEvent := .scan bareEnv (cstr "Image=\"a_1\">")

/-- The last item of the image `a_1`. -/
def endA : ImageEvent := .item bareEnv ⟨0x01, 0x03, cstr "a_1", []⟩

/-- The rest of the image `a_1` has come. -/
def filesA : ImageEvent :=
  .files fun path =>
    if path = inDir BLF_IMAGES_PATH (cstr "a_1") ++ cstr ".sw" then some [0x70] else none

/-- A scan asks for one image. -/
theorem image_books_scan :
    ∃ s, (bookMachine readyGui bareBoard).exec [scanA] = some s ∧ s.pending = [cstr "a_1"] ∧
      (bookMachine readyGui bareBoard).Always (BooksOk readyGui) [scanA] := by
  have heval : ((bookMachine readyGui bareBoard).exec [scanA]).map Books.pending
      = some [cstr "a_1"] := by decide +kernel
  obtain ⟨s, hs, hpending⟩ := Option.map_eq_some_iff.mp heval
  refine ⟨s, hs, hpending, (image_books_iff readyGui bareBoard [scanA] s hs).2.mpr ?_⟩
  refine .snoc .init ⟨?_, ?_⟩ hs
  · decide +kernel
  · decide +kernel

/-- The image comes, and the GUI, which has set its callback, is started but not told of it. -/
theorem image_not_announced :
    ¬(bookMachine readyGui bareBoard).Always (BooksOk readyGui) [scanA, filesA, endA] := by
  have heval : ((bookMachine readyGui bareBoard).exec [scanA, filesA, endA]).map
      (fun s => (s.done, s.notices)) = some (some (cstr "a_1"), [.startGui]) := by decide +kernel
  obtain ⟨s, hs, hend⟩ := Option.map_eq_some_iff.mp heval
  obtain ⟨hdone, hnotices⟩ := Prod.mk.inj hend
  intro h
  have htold := (h _ List.prefix_rfl s hs).told _ hdone rfl
  rw [hnotices] at htold
  exact absurd htold (by decide)

end LearnGit.Proofs.Uart
