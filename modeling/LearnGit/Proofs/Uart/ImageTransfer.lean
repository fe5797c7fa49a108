import LearnGit.Proofs.Uart.FixedFile
import LearnGit.Uart.App.ImageTransfer

/-!
# `LearnGit.Proofs.Uart.ImageTransfer`: an image arrives

`image_arrives`: the items that `handle_req_image` sends, processed in order, leave the content
of the image under its name, and no file with the name and `.sw`.

The header has no zero byte before its end, since the flags and the length of the name are not
zero (`imageHeader_cString`). So `strlen` finds the whole header, and the receiver's split of an
item takes off what the sender put in front (`dispatch_imageHeader`).
-/

set_option autoImplicit false

namespace LearnGit.Proofs.Uart

open LearnGit.Lib
open LearnGit.Uart.Link (Byte)
open LearnGit.Uart.App

/-! ### Statement -/

/-- A file name that fits the length byte of an item. -/
structure ImageName where
  bytes : List Byte
  pos : 0 < bytes.length
  short : bytes.length ≤ 255
  noNul : (0 : Byte) ∉ bytes
  noSlash : SLASH ∉ bytes

/-- The callbacks leave the file of this path alone, and the one in which it is collected. -/
def KeepsImage (env : Env) (gui : ImageGui) (path : Path) : Prop :=
  ∀ q ∈ [path, path ++ cstr ".sw"], (∀ call fs, env.gui call fs q = fs q) ∧
    ∀ fs, gui.bcfImagesDone fs q = fs q

/-! ### Sending -/

/-- What stands in front of the content in an item. -/
def imageHeader (flags : Byte) (name : ImageName) : List Byte :=
  0x84 :: flags :: UInt8.ofNat name.bytes.length :: name.bytes

/-- Bytes without a NUL are a C string. -/
theorem cString_of_noNul {bytes : List Byte} (h : (0 : Byte) ∉ bytes) : cString bytes = bytes := by
  rw [cString, List.takeWhile_eq_self_iff]
  intro c hc
  exact decide_eq_true fun he => h (he ▸ hc)

/-- The length of a name is not cut, and it is not zero. -/
theorem nameLength_toNat (name : ImageName) :
    (UInt8.ofNat name.bytes.length).toNat = name.bytes.length := by
  have hshort := name.short
  rw [UInt8.toNat_ofNat']
  exact Nat.mod_eq_of_lt (by omega)

/-- `strlen` finds the whole header. -/
theorem imageHeader_cString {flags : Byte} (hflags : flags ≠ 0) (name : ImageName) :
    cString (imageHeader flags name) = imageHeader flags name := by
  have hlen : UInt8.ofNat name.bytes.length ≠ 0 := by
    intro he
    have hpos := name.pos
    have hnat := nameLength_toNat name
    rw [he] at hnat
    exact absurd hnat (Nat.ne_of_lt hpos)
  refine cString_of_noNul fun hmem => ?_
  rcases List.mem_cons.mp hmem with he | hmem
  · exact absurd he (by decide)
  rcases List.mem_cons.mp hmem with he | hmem
  · exact hflags he.symm
  rcases List.mem_cons.mp hmem with he | hmem
  · exact hlen he.symm
  · exact name.noNul hmem

/-- There is room for content behind the header. -/
theorem imageHeader_room (flags : Byte) (name : ImageName) :
    0 < IMAGE_BUF - (imageHeader flags name).length := by
  have hshort := name.short
  simp only [imageHeader, List.length_cons, IMAGE_BUF]
  omega

/-- The items of a transfer after the first one: the parts and the end. -/
def imageItems (buf : List Byte) (parts : List (List Byte)) : List (List Byte) :=
  parts.map (fun part => buf ++ part) ++ [orFlags buf 0x02]

/-- The loop of the sender cuts what is left of the image into parts. -/
theorem imageLoop_parts {io : SendIo} (hio : SendIo.Ok io) (buf : List Byte) {room : Nat}
    (hroom : 0 < room) (rounds : Nat) :
    ∀ (i : Nat) (rest : List Byte), rest.length < rounds →
      ∃ parts, imageLoop io buf room rounds i rest = some (imageItems buf parts, 0) ∧
        parts.flatten = rest := by
  induction rounds with
  | zero =>
    intro i rest hlen
    exact absurd hlen (Nat.not_lt_zero _)
  | succ rounds ih =>
    intro i rest hlen
    by_cases hrest : rest = []
    · refine ⟨[], ?_, hrest.symm⟩
      simp [imageLoop, hio.read i, hio.send i, hrest, imageItems]
    · -- The read takes at least one byte.
      have hpos := List.length_pos_iff.mpr hrest
      have hdrop : (rest.drop room).length < rounds := by
        rw [List.length_drop]
        omega
      obtain ⟨parts, hloop, hparts⟩ := ih (i + 1) (rest.drop room) hdrop
      refine ⟨rest.take room :: parts, ?_, ?_⟩
      · simp only [imageLoop, hio.read i, hio.send i, hrest, hloop, Bool.not_true,
          Bool.false_eq_true, if_false, if_true, Option.map_some]
        rfl
      · rw [List.flatten_cons, hparts, List.take_append_drop]

/-- The sender puts the header in front of each part of the image. -/
theorem handleReqImage_parts {io : SendIo} (hio : SendIo.Ok io) {sender : Files} {flag : Byte}
    {dir : Path} (hdir : imageDir flag = some dir) (hflags : (flag <<< 4) &&& 0xF0 ≠ 0)
    (name : ImageName) {content : List Byte}
    (hfile : sender (inDir dir name.bytes) = some content) :
    ∃ first parts, handleReqImage io sender flag name.bytes
        = some ((imageHeader ((flag <<< 4) &&& 0xF0) name ++ first)
            :: imageItems (imageHeader (((flag <<< 4) &&& 0xF0) ||| 0x01) name) parts, 0) ∧
      first ++ parts.flatten = content := by
  obtain ⟨flags, hf⟩ : ∃ flags, flags = (flag <<< 4) &&& 0xF0 := ⟨_, rfl⟩
  rw [← hf] at hflags ⊢
  obtain ⟨room, hr⟩ : ∃ room, room = IMAGE_BUF - (imageHeader flags name).length := ⟨_, rfl⟩
  have hroom : 0 < room := hr ▸ imageHeader_room flags name
  have hlen : (content.drop room).length < content.length + 1 := by
    rw [List.length_drop]
    omega
  obtain ⟨parts, hloop, hparts⟩ := imageLoop_parts hio (imageHeader (flags ||| 0x01) name) hroom
    _ 1 (content.drop room) hlen
  refine ⟨content.take room, parts, ?_, ?_⟩
  · have hbuf : cString ((0x80 ||| AppCmd.e2mReqImage.code) :: flags
        :: UInt8.ofNat name.bytes.length :: name.bytes) = imageHeader flags name :=
      imageHeader_cString hflags name
    have hor : orFlags (imageHeader flags name) 0x01 = imageHeader (flags ||| 0x01) name := rfl
    simp only [handleReqImage, hio.malloc, hio.read 0, hio.send 0, hdir,
      cString_of_noNul name.noNul, hfile, ← hf, hbuf, hor, ← hr, hloop, Bool.not_true,
      Bool.false_eq_true, if_false, if_true, Option.map_some]
  · rw [hparts, List.take_append_drop]

/-! ### Receiving -/

variable {env : Env} {gui : ImageGui} {b : Board}

/-- The receiver takes apart what the sender put together. -/
theorem dispatch_imageHeader (devId : Nat) (flags : Byte) (name : ImageName) (part : List Byte) :
    dispatch devId (imageHeader flags name ++ part)
      = some (.handleAckReqImage ⟨(flags >>> 4) &&& 0x0F, flags &&& 0x0F, name.bytes, part⟩) := by
  have hfields : imageFields (imageHeader flags name ++ part) = some (name.bytes, part) := by
    have hle : (UInt8.ofNat name.bytes.length).toNat + 3
        ≤ (imageHeader flags name ++ part).length := by
      rw [nameLength_toNat name]
      simp only [imageHeader, List.cons_append, List.length_cons, List.length_append]
      omega
    have hthird : (imageHeader flags name ++ part)[2]? = some (UInt8.ofNat name.bytes.length) := rfl
    have hsplit : (imageHeader flags name ++ part).drop 3 = name.bytes ++ part := rfl
    rw [imageFields, hthird, Option.bind_eq_bind, Option.bind_some, if_pos hle,
      nameLength_toNat name, ← List.drop_drop, hsplit, List.take_left, List.drop_left]
    rfl
  have hack : dispatch devId (imageHeader flags name ++ part)
      = (imageFields (imageHeader flags name ++ part)).bind fun fields =>
        some (.handleAckReqImage ⟨(flags >>> 4) &&& 0x0F, flags &&& 0x0F, fields.1, fields.2⟩) :=
    rfl
  rw [hack, hfields, Option.bind_some]

/-- An item with this header is given to `handle_ack_req_image`. -/
theorem appProtoProcessImage_imageHeader (env : Env) (gui : ImageGui) (devId : Nat) (b : Board)
    (flags : Byte) (name : ImageName) (part : List Byte) :
    appProtoProcessImage env gui devId b (imageHeader flags name ++ part)
      = some (handleAckReqImage env gui b
        ⟨(flags >>> 4) &&& 0x0F, flags &&& 0x0F, name.bytes, part⟩) := by
  rw [appProtoProcessImage, dispatch_imageHeader]
  rfl

/-- The first item begins the file anew. -/
theorem handleAckReqImage_first (env : Env) (gui : ImageGui) {flagCl : Byte} {dir : Path}
    (hdir : imageDir flagCl = some dir) (b : Board) (name : ImageName) (part : List Byte) :
    ∃ b', handleAckReqImage env gui b ⟨flagCl, 0x00, name.bytes, part⟩ = .returned b' 0 ∧
      b'.files (inDir dir name.bytes ++ cstr ".sw") = some part := by
  refine ⟨(writeFirst b (inDir dir name.bytes ++ cstr ".sw") part).1, ?_,
    by rw [writeFirst_files, Function.update_self]⟩
  simp only [handleAckReqImage, hdir, cString_of_noNul name.noNul, if_true, writeFirst,
    FileMap.write, ne_eq, not_true_eq_false, if_false]

/-- A further item is appended. -/
theorem handleAckReqImage_next (env : Env) (gui : ImageGui) {flagCl : Byte} {dir : Path}
    (hdir : imageDir flagCl = some dir) (name : ImageName) {content : List Byte}
    (h : b.files (inDir dir name.bytes ++ cstr ".sw") = some content) (part : List Byte) :
    ∃ b', handleAckReqImage env gui b ⟨flagCl, 0x01, name.bytes, part⟩ = .returned b' 0 ∧
      b'.files (inDir dir name.bytes ++ cstr ".sw") = some (content ++ part) := by
  refine ⟨(writeNext b (inDir dir name.bytes ++ cstr ".sw") part).1, ?_,
    by rw [writeNext_files h, Function.update_self]⟩
  have hopen := FileMap.openFile_of_some h
  have hcs : (0x01 : Byte) ≠ 0x00 := by decide
  simp only [handleAckReqImage, hdir, cString_of_noNul name.noNul, if_neg hcs, if_true, hopen,
    writeNext, FileMap.write, ne_eq, not_true_eq_false, if_false]

/-- A path with `.sw` behind it is another one. -/
theorem swname_ne (path : Path) : path ++ cstr ".sw" ≠ path := by
  intro he
  exact absurd (List.append_right_eq_self.mp he) (by decide)

/-- The counters and the callbacks leave the image. -/
theorem countArrived_keeps {q : Path}
    (hgui : (∀ call fs, env.gui call fs q = fs q) ∧ ∀ fs, gui.bcfImagesDone fs q = fs q)
    (b : Board) (flagCl : Byte) : (countArrived env gui b flagCl).files q = b.files q := by
  obtain ⟨b₁, hb₁⟩ : ∃ b₁ : Board, b₁ = (if b.initFlag < 0 then
      { b with
        filesAbsence := b.filesAbsence - 1
        initFlag := if b.filesAbsence - 1 = 0 then 1 else b.initFlag }
    else b) := ⟨_, rfl⟩
  have hfiles : b₁.files = b.files := by
    rw [hb₁]
    split <;> rfl
  rw [← hfiles]
  simp only [countArrived, ← hb₁]
  by_cases hblf : flagCl = 0x01
  · rw [if_pos hblf]
    split
    · exact hgui.1 .startGui b₁.files
    · rfl
  rw [if_neg hblf]
  by_cases hbcf : flagCl = 0x02
  · rw [if_pos hbcf]
    split
    · exact hgui.2 b₁.files
    · rfl
  · rw [if_neg hbcf]

/-- The last item moves the file to its name, also when the callback then ends the process. -/
theorem finishImage_files {path : Path} (hgui : KeepsImage env gui path) {content : List Byte}
    (h : b.files (path ++ cstr ".sw") = some content) (flagCl : Byte) :
    (finishImage env gui b flagCl path (path ++ cstr ".sw")).board.files path = some content ∧
    (finishImage env gui b flagCl path (path ++ cstr ".sw")).board.files (path ++ cstr ".sw")
      = none := by
  have hne := swname_ne path
  have hsw : (b.unlink path).files (path ++ cstr ".sw") = some content :=
    (FileMap.unlink_of_ne hne).trans h
  obtain ⟨hret, hpath⟩ := FileMap.rename_of_some hsw hne
  have hgone := FileMap.rename_old_of_some hsw hne
  have hkeep := fun q hq => countArrived_keeps (hgui q hq)
    { b with files := ((b.unlink path).files.rename (path ++ cstr ".sw") path).1 } flagCl
  simp only [finishImage, hret, ne_eq, not_true_eq_false, if_false]
  cases gui.toGuiImage with
  | false => exact ⟨hpath, hgone⟩
  | true =>
    constructor
    · exact (hkeep path (by simp)).trans hpath
    · exact (hkeep (path ++ cstr ".sw") (by simp)).trans hgone

/-! ### The transfer -/

/-- After the parts the file is what they are together. -/
theorem receiveImages_parts (env : Env) (gui : ImageGui) {flagCl flags : Byte}
    (hcl : (flags >>> 4) &&& 0x0F = flagCl) (hcs : flags &&& 0x0F = 0x01)
    {dir : Path} (hdir : imageDir flagCl = some dir)
    (name : ImageName) (devId : Nat) (last : List (List Byte)) (parts : List (List Byte)) :
    ∀ (b : Board) (content : List Byte),
      b.files (inDir dir name.bytes ++ cstr ".sw") = some content →
      ∃ b', receiveImages env gui devId b
          (parts.map (fun part => imageHeader flags name ++ part) ++ last)
          = receiveImages env gui devId b' last ∧
        b'.files (inDir dir name.bytes ++ cstr ".sw") = some (content ++ parts.flatten) := by
  induction parts with
  | nil =>
    intro b content h
    exact ⟨b, rfl, by rw [h, List.flatten_nil, List.append_nil]⟩
  | cons part parts ih =>
    intro b content h
    obtain ⟨b₁, hnext, hfile₁⟩ := handleAckReqImage_next env gui hdir name h part
    obtain ⟨b', hrun, hfile⟩ := ih b₁ _ hfile₁
    refine ⟨b', ?_, ?_⟩
    · rw [List.map_cons, List.cons_append, receiveImages, appProtoProcessImage_imageHeader, hcl,
        hcs, hnext]
      exact hrun
    · rw [hfile, List.flatten_cons, List.append_assoc]

/-- The last item has the header alone. -/
theorem receiveImages_last {flagCl flags : Byte} (hcl : (flags >>> 4) &&& 0x0F = flagCl)
    (hcs : flags &&& 0x0F = 0x03) {dir : Path} (hdir : imageDir flagCl = some dir)
    (name : ImageName) (hgui : KeepsImage env gui (inDir dir name.bytes)) (devId : Nat)
    {content : List Byte} (h : b.files (inDir dir name.bytes ++ cstr ".sw") = some content) :
    ∃ out, receiveImages env gui devId b [imageHeader flags name] = some out ∧
      out.board.files (inDir dir name.bytes) = some content ∧
      out.board.files (inDir dir name.bytes ++ cstr ".sw") = none := by
  have hprocess := appProtoProcessImage_imageHeader env gui devId b flags name []
  have hend : handleAckReqImage env gui b ⟨flagCl, 0x03, name.bytes, []⟩
      = finishImage env gui b flagCl (inDir dir name.bytes)
        (inDir dir name.bytes ++ cstr ".sw") := by
    simp only [handleAckReqImage, hdir, cString_of_noNul name.noNul]
    rfl
  rw [List.append_nil, hcl, hcs, hend] at hprocess
  obtain ⟨hpath, hgone⟩ := finishImage_files hgui h flagCl
  rw [receiveImages, hprocess, Option.bind_eq_bind, Option.bind_some]
  cases hout : finishImage env gui b flagCl (inDir dir name.bytes)
      (inDir dir name.bytes ++ cstr ".sw") with
  | returned b' ret =>
    rw [hout] at hpath hgone
    exact ⟨_, rfl, hpath, hgone⟩
  | killed b' =>
    rw [hout] at hpath hgone
    exact ⟨_, rfl, hpath, hgone⟩

/-- An image arrives whatever the receiver had before. -/
theorem image_arrives (io : SendIo) (hio : SendIo.Ok io) (flag : Byte) (dir : Path)
    (hflag : flag = 0x01 ∧ dir = BLF_IMAGES_PATH ∨ flag = 0x02 ∧ dir = BCF_IMAGES_PATH)
    (name : ImageName) (sender : Files) (content : List Byte)
    (hfile : sender (inDir dir name.bytes) = some content) (env : Env) (gui : ImageGui)
    (hgui : KeepsImage env gui (inDir dir name.bytes)) (devId : Nat) (b : Board) :
    ∃ items out, handleReqImage io sender flag name.bytes = some (items, 0) ∧
      receiveImages env gui devId b items = some out ∧
      out.board.files (inDir dir name.bytes) = some content ∧
      out.board.files (inDir dir name.bytes ++ cstr ".sw") = none := by
  obtain ⟨flags, hf⟩ : ∃ flags, flags = (flag <<< 4) &&& 0xF0 := ⟨_, rfl⟩
  have hdir : imageDir flag = some dir := by
    rcases hflag with ⟨rfl, rfl⟩ | ⟨rfl, rfl⟩ <;> rfl
  -- The flags of the first, of the further and of the last item.
  have hflags : flags ≠ 0 ∧ (flags >>> 4) &&& 0x0F = flag ∧ flags &&& 0x0F = 0x00 ∧
      ((flags ||| 0x01) >>> 4) &&& 0x0F = flag ∧ (flags ||| 0x01) &&& 0x0F = 0x01 ∧
      ((flags ||| 0x01 ||| 0x02) >>> 4) &&& 0x0F = flag ∧
      (flags ||| 0x01 ||| 0x02) &&& 0x0F = 0x03 := by
    rw [hf]
    rcases hflag with ⟨rfl, -⟩ | ⟨rfl, -⟩ <;> decide
  obtain ⟨hne, hcl₀, hcs₀, hcl₁, hcs₁, hcl₃, hcs₃⟩ := hflags
  obtain ⟨first, parts, hsend, hparts⟩ := handleReqImage_parts hio hdir (hf ▸ hne) name hfile
  rw [← hf] at hsend
  obtain ⟨b₁, hfirst, hfile₁⟩ := handleAckReqImage_first env gui hdir b name first
  obtain ⟨b₂, hrun₂, hfile₂⟩ := receiveImages_parts env gui hcl₁ hcs₁ hdir name devId
    [imageHeader (flags ||| 0x01 ||| 0x02) name] parts b₁ first hfile₁
  rw [hparts] at hfile₂
  obtain ⟨out, hrun₃, harrived, hgone⟩ := receiveImages_last hcl₃ hcs₃ hdir name hgui devId hfile₂
  refine ⟨_, out, hsend, ?_, harrived, hgone⟩
  rw [receiveImages, appProtoProcessImage_imageHeader, hcl₀, hcs₀, hfirst]
  exact hrun₂.trans hrun₃

/-- The image `a` of the BLF file. -/
def imageA : ImageName := ⟨[0x61], by decide, by decide, by decide, by decide⟩

/-- An image of three bytes replaces a stale file and a stale `.sw` file. -/
theorem image_arrives_stale :
    ∃ items out, handleReqImage quietIo (fullSender [7, 8, 9]) 0x01 imageA.bytes = some (items, 0) ∧
      receiveImages bareEnv ⟨true, id⟩ 1 { bareBoard with files := fullSender [5] } items
        = some out ∧
      out.board.files (inDir BLF_IMAGES_PATH imageA.bytes) = some [7, 8, 9] ∧
      out.board.files (inDir BLF_IMAGES_PATH imageA.bytes ++ cstr ".sw") = none := by
  have hio : SendIo.Ok quietIo := ⟨rfl, fun _ => rfl, fun _ => rfl⟩
  have hgui : KeepsImage bareEnv ⟨true, id⟩ (inDir BLF_IMAGES_PATH imageA.bytes) :=
    fun _ _ => ⟨fun _ _ => rfl, fun _ => rfl⟩
  exact image_arrives quietIo hio 0x01 BLF_IMAGES_PATH (.inl ⟨rfl, rfl⟩) imageA
    (fullSender [7, 8, 9]) [7, 8, 9] rfl bareEnv ⟨true, id⟩ hgui 1
    { bareBoard with files := fullSender [5] }

end LearnGit.Proofs.Uart
