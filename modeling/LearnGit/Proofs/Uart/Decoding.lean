import LearnGit.Lib.Bytes
import LearnGit.Uart.App.Accesses

/-!
# `LearnGit.Proofs.Uart.Decoding`: what an item can make the decoding do

`upgradeFw_only_iff`: an item reaches `handle_upgrade_fw` without being a firmware message
exactly when it is an answer to `e2m_send_key`, `m2e_send_stat`, `m2e_send_blk` or
`m2e_reset_ex`, whose cases have no `break`.

`accesses_inside_iff`: the decoding stays inside the item exactly when the item has the length
that its command takes (`Fits`). Nothing in `app_proto_process` checks it.
-/

set_option autoImplicit false

namespace LearnGit.Proofs.Uart

open LearnGit.Uart.Link (Byte)
open LearnGit.Lib
open LearnGit.Uart.App

/-! ### Firmware -/

/-- An item of two bytes has the fields of a file. -/
theorem fixedFile_of_two_le {data : List Byte} (h : 2 ≤ data.length) :
    ∃ file, fixedFile data = some file := by
  refine ⟨⟨data[1], data.drop 2⟩, ?_⟩
  rw [fixedFile, List.getElem?_eq_getElem (by omega)]
  rfl

/-- A request reaches `handle_upgrade_fw` only as `m2e_up_fw`. -/
theorem dispatchRequest_upgradeFw {devId : Nat} {data : List Byte} {cmd : Option AppCmd}
    {fw : FixedFile} (h : dispatchRequest devId data cmd = some (.handleUpgradeFw fw)) :
    cmd = some .m2eUpFw := by
  cases cmd with
  | none => exact nomatch h
  | some cmd => cases cmd <;> simp_all [dispatchRequest, Option.bind_eq_some_iff]

/-- The answers that end in the case of `m2e_up_fw`. -/
def fallsToUpFw : List AppCmd := [.e2mSendKey, .m2eSendStat, .m2eSendBlk, .m2eResetEx, .m2eUpFw]

/-- An answer reaches the firmware upgrade exactly from the commands that fall through to it. -/
theorem dispatchAck_upgradeFw {data : List Byte} (hlen : 2 ≤ data.length) (cmd : Option AppCmd) :
    (∃ fw, dispatchAck data cmd = some (.handleUpgradeFw fw)) ↔ ∃ c ∈ fallsToUpFw, cmd = some c := by
  obtain ⟨file, hfile⟩ := fixedFile_of_two_le hlen
  cases cmd with
  | none => simp [dispatchAck]
  | some cmd => cases cmd <;> simp [dispatchAck, hfile, fallsToUpFw, Option.bind_eq_some_iff]

/-- The first bytes that end in the case of `m2e_up_fw`, over all bytes. -/
theorem upFw_cases : ∀ b : Byte,
    (b &&& 0x80 = 0x80 →
      (((∃ c ∈ fallsToUpFw, AppCmd.ofCode (b &&& 0x7F) = some c) → b &&& 0x7F = 9)
        ↔ b ∉ [0x85, 0x86, 0x87, 0x88])) ∧
    (¬b &&& 0x80 = 0x80 →
      (AppCmd.ofCode b = some .m2eUpFw → b &&& 0x7F = 9) ∧ b ∉ [0x85, 0x86, 0x87, 0x88]) :=
  byte_forall (by decide +kernel)

/-- An item that reaches `handle_upgrade_fw` is a firmware message unless it is one of the
answers that fall through. -/
theorem upgradeFw_only_iff (devId : Nat) (cmd : Byte) (rest : List Byte) (hlen : rest ≠ []) :
    ((∃ fw, dispatch devId (cmd :: rest) = some (.handleUpgradeFw fw)) →
      cmd &&& 0x7F = AppCmd.m2eUpFw.code) ↔ cmd ∉ [0x85, 0x86, 0x87, 0x88] := by
  have hdata : 2 ≤ (cmd :: rest).length := by
    have hpos := List.length_pos_iff.mpr hlen
    rw [List.length_cons]
    omega
  obtain ⟨hack, hreq⟩ := upFw_cases cmd
  by_cases hbit : cmd &&& 0x80 = 0x80
  · have hdispatch : dispatch devId (cmd :: rest)
        = dispatchAck (cmd :: rest) (AppCmd.ofCode (cmd &&& 0x7F)) := if_pos hbit
    rw [hdispatch, dispatchAck_upgradeFw hdata]
    exact hack hbit
  · have hdispatch : dispatch devId (cmd :: rest)
        = dispatchRequest devId (cmd :: rest) (AppCmd.ofCode cmd) := if_neg hbit
    rw [hdispatch]
    obtain ⟨hupFw, hnot⟩ := hreq hbit
    refine iff_of_true ?_ hnot
    rintro ⟨fw, h⟩
    exact hupFw (dispatchRequest_upgradeFw h)

/-- An answer to `m2e_up_fw` is one, and it reaches the handler. -/
theorem upgradeFw_only_iff_upFw :
    dispatch 1 [0x89, 0x0F, 7] = some (.handleUpgradeFw ⟨0x0F, [7]⟩) ∧
      (0x89 : Byte) &&& 0x7F = AppCmd.m2eUpFw.code := by
  have hreach : dispatch 1 [0x89, 0x0F, 7] = some (.handleUpgradeFw ⟨0x0F, [7]⟩) := by
    decide
  exact ⟨hreach, (upgradeFw_only_iff 1 0x89 [0x0F, 7] (by decide)).mpr (by decide) ⟨_, hreach⟩⟩

/-- An answer to `e2m_send_key` begins a new firmware. -/
theorem ack_send_key_upgrades :
    ¬ ∀ (devId : Nat) (cmd : Byte) (rest : List Byte), rest ≠ [] →
      (∃ fw, dispatch devId (cmd :: rest) = some (.handleUpgradeFw fw)) →
        cmd &&& 0x7F = AppCmd.m2eUpFw.code := by
  intro hall
  have hfalls : dispatch 1 [0x85, 0x0F, 7] = some (.handleUpgradeFw ⟨0x0F, [7]⟩) := by
    decide
  exact absurd (hall 1 0x85 [0x0F, 7] (by decide) ⟨_, hfalls⟩) (by decide)

/-! ### Accesses -/

/-- An item has the length that its request takes. -/
def FitsRequest (data : List Byte) : Option AppCmd → Prop
  | some .e2mLogin => 4 ≤ data.length
  | some .e2mReqImage => 2 ≤ data.length ∧ data.length ≤ MAX_PATH_LENGTH + 1
  | some .e2mSendKey | some .m2eSendStat | some .e2mCmd => 3 ≤ data.length
  | some .m2eSendBlk | some .m2eUpFw => 2 ≤ data.length
  | some .m2eSendImage => lenName data + 3 ≤ data.length
  | _ => True

/-- An item has the length that its answer takes. -/
def FitsAck (data : List Byte) : Option AppCmd → Prop
  | some .e2mLogin | some .m2eSendLcdBacklight => 3 ≤ data.length
  | some .m2eSendLedInfo => 5 ≤ data.length
  | some .e2mReqImage => lenName data + 3 ≤ data.length
  | some .e2mReqBcf | some .e2mReqBlf | some .e2mSendKey | some .m2eSendStat | some .m2eSendBlk
  | some .m2eResetEx | some .m2eUpFw => 2 ≤ data.length
  | _ => True

/-- An item has the length that its command takes. -/
def Fits (data : List Byte) : Prop :=
  if data.getD 0 0 &&& 0x80 = 0x80 then FitsAck data (AppCmd.ofCode (data.getD 0 0 &&& 0x7F))
  else FitsRequest data (AppCmd.ofCode (data.getD 0 0))

/-- All accesses stay inside. -/
def AllInside (length : Nat) (as : List Access) : Prop := ∀ a ∈ as, a.Inside length

/-- A difference that is not negative does not wrap. -/
theorem unsignedSub_of_le {a b : Nat} (hle : b ≤ a) (hlt : a < 2 ^ 32) :
    unsignedSub a b = a - b := by
  rw [unsignedSub]
  omega

/-- A fixed file needs two bytes. -/
theorem fixedFileAccesses_inside (item : Item) :
    AllInside item.data.length (fixedFileAccesses item.data.length) ↔ 2 ≤ item.data.length := by
  simp only [AllInside, fixedFileAccesses, List.forall_mem_cons, Access.Inside]
  constructor
  · rintro ⟨-, hsize, -⟩
    exact hsize
  · intro hle
    have hsub := unsignedSub_of_le hle item.lt
    refine ⟨by omega, hle, ⟨by omega, Nat.le_refl _⟩, ?_⟩
    exact List.forall_mem_nil _

/-- The length of a name is a byte. -/
theorem lenName_lt (data : List Byte) : lenName data < 256 := (data.getD 2 0).toNat_lt

/-- An image needs its header and its name. -/
theorem imageAccesses_inside (item : Item) :
    AllInside item.data.length (imageAccesses item.data)
      ↔ lenName item.data + 3 ≤ item.data.length := by
  have hname := lenName_lt item.data
  simp only [AllInside, imageAccesses, List.forall_mem_cons, Access.Inside, MAX_PATH_LENGTH]
  constructor
  · rintro ⟨-, -, hsize, -⟩
    exact hsize
  · intro hle
    have hsub := unsignedSub_of_le hle item.lt
    refine ⟨by omega, by omega, hle, ⟨by omega, by omega⟩, ⟨by omega, Nat.le_refl _⟩, ?_⟩
    exact List.forall_mem_nil _

/-- A request for an image needs two bytes, and its name fits into the buffer. -/
theorem reqImageAccesses_inside (item : Item) :
    AllInside item.data.length (requestAccesses item.data (some .e2mReqImage))
      ↔ 2 ≤ item.data.length ∧ item.data.length ≤ MAX_PATH_LENGTH + 1 := by
  simp only [AllInside, requestAccesses, List.forall_mem_cons, Access.Inside, MAX_PATH_LENGTH]
  constructor
  · rintro ⟨-, hsize, ⟨-, hname⟩, -⟩
    rw [unsignedSub_of_le hsize item.lt] at hname
    omega
  · rintro ⟨hle, hmax⟩
    have hsub := unsignedSub_of_le hle item.lt
    refine ⟨by omega, hle, ⟨by omega, by omega⟩, ?_⟩
    exact List.forall_mem_nil _

/-- The reads for a request are inside exactly where the item fits its command. -/
theorem requestAccesses_inside (item : Item) (cmd : Option AppCmd) :
    AllInside item.data.length (requestAccesses item.data cmd) ↔ FitsRequest item.data cmd := by
  cases cmd with
  | none => simp [AllInside, requestAccesses, FitsRequest]
  | some cmd =>
    cases cmd with
    | e2mReqImage => exact reqImageAccesses_inside item
    | m2eSendBlk => exact fixedFileAccesses_inside item
    | m2eUpFw => exact fixedFileAccesses_inside item
    | m2eSendImage => exact imageAccesses_inside item
    | _ => simp [AllInside, requestAccesses, FitsRequest, Access.Inside] <;> omega

/-- The reads for an answer are inside exactly where the item fits its command. -/
theorem ackAccesses_inside (item : Item) (cmd : Option AppCmd) :
    AllInside item.data.length (ackAccesses item.data cmd) ↔ FitsAck item.data cmd := by
  cases cmd with
  | none => simp [AllInside, ackAccesses, FitsAck]
  | some cmd =>
    cases cmd with
    | e2mReqImage => exact imageAccesses_inside item
    | e2mReqBcf | e2mReqBlf | e2mSendKey | m2eSendStat | m2eSendBlk | m2eResetEx | m2eUpFw =>
      exact fixedFileAccesses_inside item
    | _ => simp [AllInside, ackAccesses, FitsAck, Access.Inside] <;> omega

/-- The decoding stays inside exactly the items that have the length of their command. -/
theorem accesses_inside_iff (item : Item) :
    AllInside item.data.length (accesses item.data) ↔ Fits item.data := by
  have hfirst : AllInside item.data.length (accesses item.data)
      ↔ AllInside item.data.length (accesses item.data).tail := by
    constructor
    · intro h a ha
      exact h a (List.mem_of_mem_tail ha)
    · intro h a ha
      rcases List.mem_cons.mp ha with rfl | ha
      · exact item.pos
      · exact h a ha
  rw [hfirst, accesses, List.tail_cons, Fits]
  split
  · exact ackAccesses_inside item _
  · exact requestAccesses_inside item _

/-- An item with an image that fits has its fields. -/
theorem imageFields_of_fits {data : List Byte} (h : lenName data + 3 ≤ data.length) :
    ∃ flags fields, data[1]? = some flags ∧ imageFields data = some fields := by
  have hthird : data[2]? = some (data.getD 2 0) := by
    rw [List.getD_eq_getElem?_getD, List.getElem?_eq_getElem (by omega)]
    rfl
  have hname : (data.getD 2 0).toNat + 3 ≤ data.length := h
  have hfields : imageFields data = some ((data.drop 3).take (lenName data),
      data.drop (3 + lenName data)) := by
    rw [imageFields, hthird, Option.bind_eq_bind, Option.bind_some, if_pos hname]
    rfl
  exact ⟨_, _, List.getElem?_eq_getElem (by omega), hfields⟩

/-- A request that fits its command is handled. -/
theorem dispatchRequest_isSome (devId : Nat) {data : List Byte} {cmd : Option AppCmd}
    (h : FitsRequest data cmd) : (dispatchRequest devId data cmd).isSome := by
  cases cmd with
  | none => rfl
  | some cmd =>
    cases cmd with
    | m2eSendImage =>
      obtain ⟨flags, fields, hflags, hfields⟩ := imageFields_of_fits h
      simp [dispatchRequest, hflags, hfields]
    | e2mReqImage =>
      have hname : data.length - 2 ≤ MAX_PATH_LENGTH := by
        have hmax := h.2
        omega
      have hflag := List.getElem?_eq_getElem h.1
      simp [dispatchRequest, hflag, hname]
    | _ =>
      simp only [FitsRequest] at h
      simp (disch := omega) [dispatchRequest, fixedFile]

/-- An answer that fits its command is handled. -/
theorem dispatchAck_isSome {data : List Byte} {cmd : Option AppCmd} (h : FitsAck data cmd) :
    (dispatchAck data cmd).isSome := by
  cases cmd with
  | none => rfl
  | some cmd =>
    cases cmd with
    | e2mReqImage =>
      obtain ⟨flags, fields, hflags, hfields⟩ := imageFields_of_fits h
      simp [dispatchAck, hflags, hfields]
    | _ =>
      simp only [FitsAck] at h
      simp (disch := omega) [dispatchAck, fixedFile]

/-- The decoding of an item that has the length of its command reaches its call. -/
theorem dispatch_isSome_of_fits (devId : Nat) (item : Item) (h : Fits item.data) :
    (dispatch devId item.data).isSome := by
  rw [Fits] at h
  have hfirst : item.data[0]? = some (item.data.getD 0 0) := by
    rw [List.getD_eq_getElem?_getD, List.getElem?_eq_getElem item.pos]
    rfl
  rw [dispatch, hfirst, Option.bind_eq_bind, Option.bind_some]
  split
  · rename_i hbit
    rw [if_pos hbit] at h
    exact dispatchAck_isSome h
  · rename_i hbit
    rw [if_neg hbit] at h
    exact dispatchRequest_isSome devId h

/-- The answer with an image whose name has more bytes than the item. -/
def shortImage : Item := ⟨[0x84, 0x10, 0xFF], by decide, by decide⟩

/-- The name is read from behind the item, and the size of the content wraps. -/
theorem short_image_outside :
    ¬ ∀ item : Item, AllInside item.data.length (accesses item.data) := by
  intro hall
  have hsize := hall shortImage (.size 3 258) (by decide)
  exact absurd hsize (by simp [Access.Inside])

end LearnGit.Proofs.Uart
