import LearnGit.Lib.Machine
import LearnGit.Uart.App.ImageTransfer

/-!
# `LearnGit.Uart.App.ImageBooks`: histories of scans and of images that come

A board scans a BLF description with `images_check_and_update`, which asks for the images that are
missing, and the images come with `handle_ack_req_image`. `ImageTransfer` has what the handler does
to the board. Here is which functions of the GUI it calls, and the machine of all histories: scans,
items in any order, and whatever else happens to the files.

`requests`, `pending` and `done` are kept beside the board. The images that a scan asks for are read
off what it gives to `link_send`. A line is a request of its own, so that an image which is named
twice is requested twice, and it is one image that is pending. An image that comes to its end has to
be one that was requested and not answered.
-/

set_option autoImplicit false

namespace LearnGit.Uart.App

open LearnGit.Lib
open LearnGit.Uart.Link (Byte)

/-! ### The calls of the GUI -/

/-- A call of the GUI that an image makes. -/
inductive ImageNotice where
  | startGui
  | image (name : Path)
  deriving DecidableEq, Repr

/-- `core_to_gui_image`: its calls, or `none` where it calls a null pointer. The test is
`NULL == to_gui_image`, and the branch for it makes the call. -/
def coreToGuiImage (toGuiImage : Bool) (_name : Path) : Option (List ImageNotice) :=
  if toGuiImage = false then
    -- `to_gui_image(name)`
    none
  else
    -- "ERROR: to_gui_login is NULL !"
    some []

/-- `core_gui_start_gui` where the last BLF image has come. -/
def arrivedNotices (b : Board) (flagCl : Byte) : List ImageNotice :=
  if flagCl = 0x01 ∧ b.blfFilesNum - 1 = 0 then [.startGui] else []

/-- The name of the image whose transfer an item ends, with its flag. -/
def completes (b : Board) (aImage : AckImage) : Option (Path × Byte) :=
  match imageDir aImage.flagCl with
  | none => none
  | some dir =>
    let path := inDir dir (cString aImage.imageName)
    if aImage.flagCs = 0x03 ∧ ((b.unlink path).files.rename (path ++ cstr ".sw") path).2 = 0 then
      some (cString aImage.imageName, aImage.flagCl)
    else none

/-- The calls of the GUI that `handle_ack_req_image` makes. -/
def ackImageNotices (gui : ImageGui) (b : Board) (aImage : AckImage) : List ImageNotice :=
  match completes b aImage with
  | none => []
  | some (name, flagCl) =>
    match coreToGuiImage gui.toGuiImage name with
    | none => []
    | some notices => notices ++ arrivedNotices b flagCl

/-! ### Histories -/

/-- What happens to a board. -/
inductive ImageEvent where
  /-- `images_check_and_update` over a BLF description. -/
  | scan (env : Env) (content : List Byte)
  /-- `handle_ack_req_image`. -/
  | item (env : Env) (aImage : AckImage)
  /-- Other functions change files. -/
  | files (files : Files)

/-- How a process goes on. -/
inductive Life where
  | running
  /-- It has called a null pointer. -/
  | killed
  /-- It has stored outside of an array. -/
  | undefined
  deriving DecidableEq, Repr

/-- A board and its books. -/
structure Books where
  board : Board
  /-- The requests that no image has answered, one for each line that has asked for one. -/
  requests : List Path
  /-- The BLF images that were asked for and have not come, each of them once. -/
  pending : List Path
  /-- The BLF image that the last event has completed. -/
  done : Option Path
  /-- The calls of the GUI that the last event has made. -/
  notices : List ImageNotice
  life : Life

/-- The names of the images that a scan has asked for, a name for each request. -/
def asked (before after : Board) : List Path :=
  (after.linkOut.drop before.linkOut.length).map (·.drop 2)

/-- The BLF image that an item completes. -/
def completesBlf (b : Board) (aImage : AckImage) : Option Path :=
  match completes b aImage with
  | some (name, flagCl) => if flagCl = 0x01 then some name else none
  | none => none

/-- What a scan leaves. -/
def scanStep (env : Env) (s : Books) (content : List Byte) : Books :=
  match imagesCheckAndUpdate env s.board content BLF_IMAGES_PATH 0x01 with
  | none => { s with done := none, notices := [], life := .undefined }
  | some (b, _) =>
    { s with
      board := b
      requests := s.requests ++ asked s.board b
      pending := (s.pending ++ asked s.board b).dedup
      done := none
      notices := [] }

/-- What an item leaves, when it completes this BLF image. -/
def itemStep (env : Env) (gui : ImageGui) (s : Books) (aImage : AckImage) (done : Option Path) :
    Books :=
  let outcome := handleAckReqImage env gui s.board aImage
  { board := outcome.board
    requests := (done.map s.requests.erase).getD s.requests
    pending := (done.map s.pending.erase).getD s.pending
    done := done
    notices := ackImageNotices gui s.board aImage
    life :=
      match outcome with
      | .returned _ _ => .running
      | .killed _ => .killed }

/-- An event. Nothing happens any more when the process has ended, and no BLF image comes to its end
that was not asked for. -/
def bookStep (gui : ImageGui) (s : Books) (e : ImageEvent) : Option Books :=
  if s.life ≠ .running then none
  else
    match e with
    | .scan env content => some (scanStep env s content)
    | .item env aImage =>
      match completesBlf s.board aImage with
      | none => some (itemStep env gui s aImage none)
      | some name =>
        if name ∈ s.requests then some (itemStep env gui s aImage (some name)) else none
    | .files files =>
      some { s with board := { s.board with files := files }, done := none, notices := [] }

/-- The machine of the histories of a board that starts with these files and flags. -/
def bookMachine (gui : ImageGui) (start : Board) : Machine Books ImageEvent where
  init := ⟨{ start with blfFilesNum := 0 }, [], [], none, [], .running⟩
  step := bookStep gui

end LearnGit.Uart.App
