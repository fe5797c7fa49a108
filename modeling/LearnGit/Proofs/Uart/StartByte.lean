import LearnGit.Proofs.Uart.BitFlip

/-!
# `LearnGit.Proofs.Uart.StartByte`: where the start byte stands

`start_unique_iff`: in the frames that are built for segments, `0xAA` stands at the offset 0 only,
and `check_buffer` finds a frame boundary from any place of the line on, if and only if no segment
has 170 stuffed bytes. The payload and the CRC are stuffed and the id byte cannot be `0xAA`, but the
length byte is written as it is.

A segment that is cut off because the packet is full has 239 stuffed bytes or 240
(`feedLoop_full`). So one of 170 is all that was left of the data.
-/

set_option autoImplicit false

namespace LearnGit.Proofs.Uart

open LearnGit.Uart.Link

/-! ### Statement -/

/-- A call of `feed_data_inpacket` for a packet to device 1, with `dataLen` bytes left at `pdata`. -/
structure Segment where
  pkt : ProPacketInfo
  dataLen : Int
  pdata : List Byte
  devId : pkt.devId = 1
  cmd : pkt.cmd = .sof ∨ pkt.cmd = .tx ∨ pkt.cmd = .eof
  num : pkt.num ≠ 0

/-- The frame that `pro_pack_data` builds for the segment. -/
def Segment.frame (s : Segment) : List Byte :=
  proPackData (feedDataInpacket s.pkt s.dataLen s.pdata).1

/-- What is left of the data when the segment is cut. -/
def Segment.left (s : Segment) : List Byte := s.pdata.take s.dataLen.toNat

/-- The start byte stands at the offset 0 and nowhere else. -/
def StartUnique (f : List Byte) : Prop := ∀ k : Nat, f[k]? = some PRO_PKT_START_CHAR ↔ k = 0

/-- A frame begins at the offset `p` of the frames on the line. -/
def FrameBegins (frames : List (List Byte)) (p : Nat) : Prop :=
  ∃ n < frames.length, p = (frames.take n).flatten.length

/-- Whichever part of the line the buffer holds, what `check_buffer` leaves of it begins with a
frame. -/
def Resynchronises (frames : List (List Byte)) : Prop :=
  ∀ (k m : Nat) (rest : List Byte) (handed : List (List Byte)) (s : RxLoop),
    checkBuffer ⟨(frames.flatten.drop k).take m, rest, handed⟩ = some s →
      FrameBegins frames (k + (((frames.flatten.drop k).take m).length - s.content.length))

/-- The bytes that take two places in a packet. -/
def isStuffed (b : Byte) : Bool := b == 0x00 || b == 0xFF || b == 0xAA

/-- The number of places that the bytes take in a packet. -/
def stuffedLength (x : List Byte) : Nat := x.length + x.countP isStuffed

/-! ### The length of a segment -/

/-- A byte that is stuffed takes two. -/
theorem stuffByte_length_eq (b : Byte) : (stuffByte b).length = if isStuffed b then 2 else 1 := by
  rw [stuffByte, isStuffed]
  split
  · rename_i hb
    rw [hb]
    rfl
  · split
    · rename_i hb
      rw [hb]
      rfl
    · split
      · rename_i hb
        rw [hb]
        rfl
      · rename_i h₁ h₂ h₃
        rw [beq_false_of_ne h₁, beq_false_of_ne h₂, beq_false_of_ne h₃]
        rfl

/-- The stuffed text has the stuffed length. -/
theorem stuff_length (x : List Byte) : (stuff x).length = stuffedLength x := by
  induction x with
  | nil => rfl
  | cons b x ih =>
    rw [stuff_cons, List.length_append, ih, stuffByte_length_eq, stuffedLength, stuffedLength,
      List.length_cons, List.countP_cons]
    split <;> omega

/-- The loop writes all that is left, or it stops with a full packet. -/
theorem feedLoop_full (srcLen : Int) (pdata : List Byte) (i : Nat) (out : List Byte)
    (hi : (i : Int) ≤ srcLen) :
    (feedLoop srcLen pdata i out).2 = out ++ stuff (pdata.take (srcLen - i).toNat) ∨
      PRO_MAX_DATADOMAIN_SIZE - 1 ≤ (feedLoop srcLen pdata i out).2.length := by
  induction pdata generalizing i out with
  | nil =>
    rw [List.take_nil, stuff_nil, List.append_nil]
    exact Or.inl rfl
  | cons b rest ih =>
    rw [feedLoop]
    split
    · rename_i hgo
      have hstep : (srcLen - i).toNat = (srcLen - (i + 1 : Nat)).toNat + 1 := by omega
      rw [hstep, List.take_succ_cons, stuff_cons, ← List.append_assoc]
      exact ih (i + 1) (out ++ stuffByte b) (by omega)
    · -- The loop stops with a full packet or behind the last byte.
      rename_i hstop
      by_cases hfull : PRO_MAX_DATADOMAIN_SIZE - 1 ≤ out.length
      · exact Or.inr hfull
      · have hnone : (srcLen - i).toNat = 0 := by omega
        rw [hnone, List.take_zero, stuff_nil, List.append_nil]
        exact Or.inl rfl

section Frames

variable (s : Segment)

/-- The payload of a segment is stuffed, and fits. -/
theorem Segment.data_eq : ∃ k ≤ s.dataLen.toNat,
    (feedDataInpacket s.pkt s.dataLen s.pdata).1.data = stuff (s.pdata.take k) ∧
      (stuff (s.pdata.take k)).length ≤ PRO_MAX_DATADOMAIN_SIZE := by
  obtain ⟨k, heq, -, hsrc, hbound⟩ := feedLoop_spec s.dataLen s.pdata 0 [] (Nat.zero_le _)
  rw [List.nil_append] at heq hbound
  have hdata : (feedDataInpacket s.pkt s.dataLen s.pdata).1.data = stuff (s.pdata.take k) := by
    show (feedLoop s.dataLen s.pdata 0 []).2 = _
    rw [heq]
  exact ⟨k, by omega, hdata, hbound⟩

/-- A segment has 170 stuffed bytes if all that is left has so many. -/
theorem Segment.length_iff :
    (feedDataInpacket s.pkt s.dataLen s.pdata).1.data.length = 170 ↔ stuffedLength s.left = 170 := by
  rcases Int.lt_or_le s.dataLen 0 with hneg | hpos
  · have hnone : s.left = [] := by
      rw [Segment.left, Int.toNat_of_nonpos (by omega), List.take_zero]
    rw [feedDataInpacket_of_nonpos s.pkt s.pdata s.dataLen (by omega), hnone]
    exact Iff.rfl
  · rcases feedLoop_full s.dataLen s.pdata 0 [] (by omega) with hall | hfull
    · have hdata : (feedDataInpacket s.pkt s.dataLen s.pdata).1.data = stuff s.left := by
        show (feedLoop s.dataLen s.pdata 0 []).2 = _
        rw [hall, List.nil_append, Segment.left]
        congr 3
        omega
      rw [hdata, stuff_length]
    · -- The packet is full. What is left takes at least as many places, so neither length is 170.
      obtain ⟨k, hk, hdata, -⟩ := s.data_eq
      have hfull' : PRO_MAX_DATADOMAIN_SIZE - 1
          ≤ (feedDataInpacket s.pkt s.dataLen s.pdata).1.data.length := hfull
      have hsub : (s.pdata.take k).Sublist s.left := List.take_sublist_take_left hk
      have hle : stuffedLength (s.pdata.take k) ≤ stuffedLength s.left :=
        Nat.add_le_add hsub.length_le hsub.countP_le
      rw [hdata, stuff_length] at hfull' ⊢
      rw [PRO_MAX_DATADOMAIN_SIZE] at hfull'
      omega

/-! ### The bytes of a frame -/

/-- Behind the start character there must be no other. -/
theorem startUnique_cons {rest : List Byte} :
    StartUnique (PRO_PKT_START_CHAR :: rest) ↔ PRO_PKT_START_CHAR ∉ rest := by
  constructor
  · intro h hmem
    obtain ⟨i, hi⟩ := List.mem_iff_getElem?.mp hmem
    have hzero := (h (i + 1)).mp (by rw [List.getElem?_cons_succ]; exact hi)
    omega
  · intro hnot k
    cases k with
    | zero => exact ⟨fun _ => rfl, fun _ => rfl⟩
    | succ k =>
      constructor
      · intro hk
        rw [List.getElem?_cons_succ] at hk
        exact absurd (List.mem_of_getElem? hk) hnot
      · intro hk
        omega

/-- The byte of device, number and command is never the start character. -/
theorem Segment.id_ne_start :
    idCmdNum (feedDataInpacket s.pkt s.dataLen s.pdata).1 ≠ PRO_PKT_START_CHAR := by
  have htable : ∀ num : Fin 4, ∀ cmd : ProtocolCmd,
      (cmd = .sof ∨ cmd = .tx ∨ cmd = .eof) →
        idCmdNum { devId := 1, cmd := cmd, num := num, data := [] } ≠ PRO_PKT_START_CHAR := by
    intro num cmd hcmd
    rcases hcmd with rfl | rfl | rfl
    · revert num
      decide
    · revert num
      decide
    · revert num
      decide
  have hid := htable s.pkt.num s.pkt.cmd s.cmd
  show idCmdNum { s.pkt with data := _ } ≠ _
  rw [idCmdNum]
  rw [idCmdNum] at hid
  rw [s.devId]
  exact hid

/-- Of the lengths only 170 is the start character. -/
theorem ofNat_eq_start {n : Nat} (h : n ≤ PRO_MAX_DATADOMAIN_SIZE) :
    UInt8.ofNat n = PRO_PKT_START_CHAR ↔ n = 170 := by
  rw [PRO_MAX_DATADOMAIN_SIZE] at h
  rw [← UInt8.toNat_inj, UInt8.toNat_ofNat', Nat.mod_eq_of_lt (by omega)]
  exact Iff.rfl

/-- The start of a frame is unique exactly where its stuffed length is not 170. -/
theorem Segment.frame_unique_iff : StartUnique s.frame ↔ stuffedLength s.left ≠ 170 := by
  obtain ⟨k, -, hdata, hfits⟩ := s.data_eq
  have hlen : (feedDataInpacket s.pkt s.dataLen s.pdata).1.data.length
      ≤ PRO_MAX_DATADOMAIN_SIZE := by
    rw [hdata]
    exact hfits
  obtain ⟨hcrc₁, hcrc₂⟩ :=
    crcField_ne_start (proGenCrc8 (feedDataInpacket s.pkt s.dataLen s.pdata).1.data)
  have hpayload : PRO_PKT_START_CHAR ∉ (feedDataInpacket s.pkt s.dataLen s.pdata).1.data := by
    rw [hdata]
    exact start_notMem_stuff _
  have hframe : s.frame = PRO_PKT_START_CHAR :: _ := proPackData_eq _ (Nat.le_trans hlen (by decide))
  rw [hframe, startUnique_cons, Ne, ← s.length_iff, ← ofNat_eq_start hlen]
  -- The length byte is the only one that may be the start byte.
  constructor
  · intro hnot heq
    exact hnot (List.mem_cons_of_mem _ (List.mem_cons.mpr (Or.inl heq.symm)))
  · intro hne hmem
    rcases List.mem_cons.mp hmem with heq | hmem
    · exact s.id_ne_start heq.symm
    · rcases List.mem_cons.mp hmem with heq | hmem
      · exact hne heq.symm
      · rcases List.mem_cons.mp hmem with heq | hmem
        · exact hcrc₁ heq.symm
        · rcases List.mem_cons.mp hmem with heq | hmem
          · exact hcrc₂ heq.symm
          · exact hpayload hmem

end Frames

/-! ### The line -/

/-- A start byte on the line begins a frame. -/
theorem frameBegins_of_start {frames : List (List Byte)} (hunique : ∀ f ∈ frames, StartUnique f) :
    ∀ p : Nat, frames.flatten[p]? = some PRO_PKT_START_CHAR → FrameBegins frames p := by
  induction frames with
  | nil =>
    intro p hp
    rw [List.flatten_nil, List.getElem?_nil] at hp
    exact nomatch hp
  | cons f frames ih =>
    intro p hp
    rw [List.flatten_cons] at hp
    by_cases hin : p < f.length
    · -- In the first frame the start byte is at the offset 0.
      rw [List.getElem?_append_left hin] at hp
      have hzero := (hunique f List.mem_cons_self p).mp hp
      exact ⟨0, Nat.succ_pos _, hzero⟩
    · rw [List.getElem?_append_right (by omega)] at hp
      obtain ⟨n, hn, heq⟩ := ih (fun g hg => hunique g (List.mem_cons_of_mem f hg)) _ hp
      refine ⟨n + 1, Nat.succ_lt_succ hn, ?_⟩
      rw [List.take_succ_cons, List.flatten_cons, List.length_append]
      omega

/-- Where every start is unique the receiver finds its way back. -/
theorem resynchronises_of_unique {frames : List (List Byte)}
    (hunique : ∀ f ∈ frames, StartUnique f) : Resynchronises frames := by
  intro k m rest handed s hs
  refine frameBegins_of_start hunique _ ?_
  rcases checkBuffer_cases ⟨(frames.flatten.drop k).take m, rest, handed⟩ with
    ⟨-, hnone⟩ | ⟨skip, d, rest', hsplit, -, hhead, hsome⟩
  · rw [hnone] at hs
    exact nomatch hs
  · rw [hsome] at hs
    have hcontent : s.content = d := by
      rw [← Option.some.inj hs]
    have hoffset : ((frames.flatten.drop k).take m).length - s.content.length = skip.length := by
      rw [hcontent, show (frames.flatten.drop k).take m = skip ++ d from hsplit,
        List.length_append, Nat.add_sub_cancel]
    have hwindow : ((frames.flatten.drop k).take m)[skip.length]? = some PRO_PKT_START_CHAR := by
      rw [show (frames.flatten.drop k).take m = skip ++ d from hsplit,
        List.getElem?_append_right (Nat.le_refl _), Nat.sub_self, ← List.head?_eq_getElem?]
      exact hhead
    rw [hoffset, ← List.getElem?_drop]
    rw [List.getElem?_take] at hwindow
    split at hwindow
    · exact hwindow
    · exact nomatch hwindow

/-! ### The theorem -/

/-- The start byte is unique in every frame, and `check_buffer` finds frame boundaries on a line
with these frames, if and only if nothing that is left when a segment is cut takes 170 places. -/
theorem start_unique_iff (segments : List Segment) :
    ((∀ s ∈ segments, StartUnique s.frame) ∧ Resynchronises (segments.map Segment.frame))
      ↔ ∀ s ∈ segments, stuffedLength s.left ≠ 170 := by
  constructor
  · rintro ⟨hunique, -⟩ s hs
    exact s.frame_unique_iff.mp (hunique s hs)
  · intro hlengths
    have hunique : ∀ s ∈ segments, StartUnique s.frame := fun s hs =>
      s.frame_unique_iff.mpr (hlengths s hs)
    refine ⟨hunique, resynchronises_of_unique ?_⟩
    intro f hf
    obtain ⟨s, hs, rfl⟩ := List.mem_map.mp hf
    exact hunique s hs

/-- The segment of a payload of 170 bytes that need no stuffing. -/
def segment170 : Segment where
  pkt := { devId := 1, cmd := .sof, num := 1, data := [] }
  dataLen := 170
  pdata := List.replicate 170 0x41
  devId := rfl
  cmd := Or.inl rfl
  num := by decide

/-- Its length byte is `0xAA`. -/
theorem segment170_two_starts : ¬ StartUnique segment170.frame := by
  intro h
  have hbyte : segment170.frame[2]? = some PRO_PKT_START_CHAR := by decide
  exact absurd ((h 2).mp hbyte) (by decide)

end LearnGit.Proofs.Uart
