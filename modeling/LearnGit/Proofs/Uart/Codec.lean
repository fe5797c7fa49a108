import LearnGit.Uart.Link.Receive

/-!
# `LearnGit.Proofs.Uart.Codec`: what is packed is unpacked

`stuff x` is the payload `feed_data_inpacket` writes for the bytes `x`. The two theorems the
rest of the development uses:

* `feedDataInpacket_spec`: a segment takes `k` bytes of the data, at least one, and its
  payload is `stuff` of them, at most `PRO_MAX_DATADOMAIN_SIZE` bytes;
* `proUnpackPkg_proPackData`: a frame whose payload is `stuff x` unpacks to the packet it was
  packed from, with payload `x`, and passes the CRC check (`crcMatches_proPackData`).

The unpacking loop runs on an `unsigned char` index. The bound of 250 payload bytes keeps the
index and `total_len` from wrapping. Payloads on the line have at most 240 bytes.
-/

set_option autoImplicit false

namespace LearnGit.Proofs.Uart

open LearnGit.Uart.Link

/-- The stuffed form of a byte string. -/
def stuff (x : List Byte) : List Byte := x.flatMap stuffByte

/-- The empty text is stuffed to itself. -/
@[simp] theorem stuff_nil : stuff [] = [] := rfl

/-- A text is stuffed byte by byte. -/
@[simp] theorem stuff_cons (b : Byte) (x : List Byte) : stuff (b :: x) = stuffByte b ++ stuff x :=
  rfl

/-- A byte is stuffed as itself, or as `0xFF` and a byte that unescapes to it. -/
theorem stuffByte_cases (b : Byte) :
    (stuffByte b = [b] ∧ b ≠ 0xFF) ∨ (∃ e, stuffByte b = [0xFF, e] ∧ unescape e = b) := by
  unfold stuffByte
  split
  · rename_i h
    exact Or.inr ⟨0xF0, rfl, by rw [h]; decide⟩
  · split
    · rename_i h
      exact Or.inr ⟨0xFF, rfl, by rw [h]; decide⟩
    · rename_i hne
      split
      · rename_i h
        exact Or.inr ⟨0xFA, rfl, by rw [h]; decide⟩
      · exact Or.inl ⟨rfl, hne⟩

/-- A byte is stuffed to one or two. -/
theorem stuffByte_length (b : Byte) :
    1 ≤ (stuffByte b).length ∧ (stuffByte b).length ≤ 2 := by
  rcases stuffByte_cases b with ⟨h, _⟩ | ⟨e, h, _⟩ <;> simp [h]

/-- Stuffing does not shorten a text. -/
theorem length_le_stuff (x : List Byte) : x.length ≤ (stuff x).length := by
  induction x with
  | nil => simp
  | cons b x ih =>
    have := (stuffByte_length b).1
    simp only [stuff_cons, List.length_append, List.length_cons]
    omega

/-! ### Segments -/

/-- The feeding loop stops at `i + k` with the stuffed first `k` bytes appended. -/
theorem feedLoop_spec (srcLen : Int) (pdata : List Byte) (i : Nat) (out : List Byte)
    (hout : out.length ≤ PRO_MAX_DATADOMAIN_SIZE) :
    ∃ k, feedLoop srcLen pdata i out = (i + k, out ++ stuff (pdata.take k)) ∧
      k ≤ pdata.length ∧ (0 < k → (i + k : Int) ≤ srcLen) ∧
      (out ++ stuff (pdata.take k)).length ≤ PRO_MAX_DATADOMAIN_SIZE := by
  induction pdata generalizing i out with
  | nil => exact ⟨0, by simp [feedLoop], by simp, by simp, by simpa using hout⟩
  | cons b rest ih =>
    unfold feedLoop
    split
    · rename_i hcond
      have hlen := (stuffByte_length b).2
      -- At most 238 bytes are written, and two more fit.
      obtain ⟨k, heq, hk, hsrc, hbound⟩ := ih (i + 1) (out ++ stuffByte b) (by
        simp only [List.length_append, PRO_MAX_DATADOMAIN_SIZE] at *
        omega)
      refine ⟨k + 1, ?_, by simpa using hk, fun _ => ?_, by simpa using hbound⟩
      · rw [heq]
        simp [Nat.add_comm, Nat.add_left_comm]
      · rcases Nat.eq_zero_or_pos k with h0 | hpos
        · subst h0
          omega
        · have := hsrc hpos
          omega
    · exact ⟨0, by simp, by simp, by simp, by simpa using hout⟩

/-- The feeding loop takes the first byte when the length it is given is positive. -/
theorem feedLoop_pos (srcLen : Int) (pdata : List Byte) (hne : pdata ≠ []) (hpos : 0 < srcLen) :
    1 ≤ (feedLoop srcLen pdata 0 []).1 := by
  cases pdata with
  | nil => exact absurd rfl hne
  | cons b rest =>
    have hcond : ([] : List Byte).length < PRO_MAX_DATADOMAIN_SIZE - 1 ∧ ((0 : Nat) : Int) < srcLen :=
      ⟨by simp [PRO_MAX_DATADOMAIN_SIZE], by simpa using hpos⟩
    have hlen := (stuffByte_length b).2
    obtain ⟨k, heq, -⟩ := feedLoop_spec srcLen rest 1 ([] ++ stuffByte b) (by
      simp only [List.nil_append, PRO_MAX_DATADOMAIN_SIZE]
      omega)
    rw [feedLoop, if_pos hcond, heq]
    simp

/-- A segment cut from data that has `dataLen` bytes left. -/
theorem feedDataInpacket_spec (pkt : ProPacketInfo) (pdata : List Byte) (hne : pdata ≠ []) :
    ∃ k, feedDataInpacket pkt pdata.length pdata
        = ({ pkt with data := stuff (pdata.take k) }, k) ∧
      1 ≤ k ∧ k ≤ pdata.length ∧ (stuff (pdata.take k)).length ≤ PRO_MAX_DATADOMAIN_SIZE := by
  obtain ⟨k, heq, hk, -, hbound⟩ := feedLoop_spec pdata.length pdata 0 [] (by simp)
  have hpos := feedLoop_pos pdata.length pdata hne (by
    have := List.length_pos_iff.mpr hne
    omega)
  refine ⟨k, ?_, ?_, hk, by simpa using hbound⟩
  · simp [feedDataInpacket, heq]
  · rw [heq] at hpos
    simpa using hpos

/-- With a length that is not positive, a segment is empty and takes nothing. -/
theorem feedDataInpacket_of_nonpos (pkt : ProPacketInfo) (pdata : List Byte) (dataLen : Int)
    (h : dataLen ≤ 0) : feedDataInpacket pkt dataLen pdata = ({ pkt with data := [] }, 0) := by
  have hloop : feedLoop dataLen pdata 0 [] = (0, []) := by
    cases pdata with
    | nil => rfl
    | cons b rest =>
      unfold feedLoop
      rw [if_neg]
      rintro ⟨-, hlt⟩
      omega
  simp [feedDataInpacket, hloop]

/-! ### Unpacking -/

/-- The unpacking loop on a stuffed string. The induction is on the string that was stuffed:
each of its bytes is one round of the loop. -/
theorem unpackLoop_stuff (pdat : Nat → Byte) (dataLen : Nat) (hlen : dataLen ≤ 250) :
    ∀ (x : List Byte) (rounds pos : Nat) (data : List Byte),
      pos + (stuff x).length = dataLen → x.length < rounds →
      (∀ i, i < (stuff x).length → pdat (pos + i) = (stuff x).getD i 0) →
      unpackLoop pdat dataLen rounds pos data = some (data ++ x) := by
  intro x
  induction x with
  | nil =>
    intro rounds pos data hpos hrounds _
    obtain ⟨rounds, rfl⟩ : ∃ r, rounds = r + 1 := ⟨rounds - 1, by simp at hrounds; omega⟩
    have hstop : ¬ pos < dataLen := by simp at hpos; omega
    simp [unpackLoop, hstop]
  | cons b x ih =>
    intro rounds pos data hpos hrounds hread
    obtain ⟨rounds, rfl⟩ : ∃ r, rounds = r + 1 := ⟨rounds - 1, by simp at hrounds; omega⟩
    simp only [List.length_cons, Nat.add_lt_add_iff_right] at hrounds
    rcases stuffByte_cases b with ⟨hb, hne⟩ | ⟨e, hb, he⟩
    · -- A plain byte: one step of the index.
      simp only [stuff_cons, hb, List.singleton_append, List.length_cons] at hpos hread
      have hfirst : pdat pos = b := by simpa using hread 0 (by omega)
      have hstep : (pos + 1) % 256 = pos + 1 := Nat.mod_eq_of_lt (by omega)
      have hgo : pos < dataLen := by omega
      rw [unpackLoop, if_pos hgo, hfirst, if_neg hne, hstep,
        ih rounds (pos + 1) (data ++ [b]) (by omega) hrounds ?_]
      · simp
      · intro i hi
        have := hread (i + 1) (by omega)
        simpa [Nat.add_assoc, Nat.add_comm 1 i] using this
    · -- An escape: the index steps over two bytes.
      simp only [stuff_cons, hb, List.cons_append, List.nil_append, List.length_cons]
        at hpos hread
      have hfirst : pdat pos = 0xFF := by simpa using hread 0 (by omega)
      have hsecond : pdat (pos + 1) = e := by simpa using hread 1 (by omega)
      have hstep : (pos + 1) % 256 = pos + 1 := Nat.mod_eq_of_lt (by omega)
      have hstep2 : (pos + 1 + 1) % 256 = pos + 2 := Nat.mod_eq_of_lt (by omega)
      have hgo : pos < dataLen := by omega
      rw [unpackLoop, if_pos hgo, if_pos hfirst]
      simp only [hstep, hstep2, hsecond, he]
      rw [ih rounds (pos + 2) (data ++ [b]) (by omega) hrounds ?_]
      · simp
      · intro i hi
        have := hread (i + 2) (by omega)
        simpa [Nat.add_assoc, Nat.add_comm 2 i] using this

/-- The frame of a packet with at most 250 payload bytes, written out. -/
theorem proPackData_eq (info : ProPacketInfo) (hlen : info.data.length ≤ 250) :
    proPackData info =
      TTY_DATA_HEADER :: idCmdNum info :: UInt8.ofNat info.data.length ::
        (crcField (proGenCrc8 info.data)).1 :: (crcField (proGenCrc8 info.data)).2 ::
        info.data := by
  have hmod : (info.data.length + PRO_IDX_PKT_HEADER_LEN) % 256 = info.data.length + 5 :=
    Nat.mod_eq_of_lt (by simp only [PRO_IDX_PKT_HEADER_LEN]; omega)
  unfold proPackData
  simp only [hmod]
  exact List.take_of_length_le (by simp)

/-- The length byte of a frame. -/
theorem proPackData_length_byte (info : ProPacketInfo) (hlen : info.data.length ≤ 250) :
    ((proPackData info).getD 2 0).toNat = info.data.length := by
  rw [proPackData_eq info hlen]
  simp only [List.getD_cons_succ, List.getD_cons_zero]
  rw [UInt8.toNat_ofNat']
  exact Nat.mod_eq_of_lt (by omega)

/-- The two CRC bytes give the CRC back. -/
theorem crcField_decode (c : Byte) :
    (if (crcField c).1 = 0xFF then unescape (crcField c).2 else (crcField c).1) = c := by
  unfold crcField
  by_cases h1 : c = 0xFF
  · subst h1
    decide
  · by_cases h2 : c = 0x00
    · subst h2
      decide
    · by_cases h3 : 0xAA = c
      · subst h3
        decide
      · simp [h1, h2, h3]

/-- The id byte gives device, command and number back. -/
theorem idCmdNum_decode (devId : Fin 8) (cmd : ProtocolCmd) (num : Fin 4) (data : List Byte) :
    let ch := idCmdNum { devId := devId, cmd := cmd, num := num, data := data }
    Fin.ofNat 8 ((ch >>> 5) &&& (0x07 : Byte)).toNat = devId ∧
      ProtocolCmd.ofByte (ch >>> 2) = cmd ∧ Fin.ofNat 4 (ch &&& 0x03).toNat = num := by
  -- The payload does not enter, so there are 8 · 4 · 8 cases to check.
  have key : ∀ (d : Fin 8) (n : Fin 4) (c : ProtocolCmd),
      let ch := idCmdNum { devId := d, cmd := c, num := n, data := [] }
      Fin.ofNat 8 ((ch >>> 5) &&& (0x07 : Byte)).toNat = d ∧
        ProtocolCmd.ofByte (ch >>> 2) = c ∧ Fin.ofNat 4 (ch &&& 0x03).toNat = n := by
    intro d n c
    cases c <;> revert d n <;> decide
  exact key devId num cmd

/-- A frame with a stuffed payload unpacks to its packet. -/
theorem proUnpackPkg_proPackData (info : ProPacketInfo) (x : List Byte)
    (hdata : info.data = stuff x) (hlen : info.data.length ≤ 250) :
    proUnpackPkg (proPackData info) ((proPackData info).getD 2 0).toNat =
      some { info with crc8 := proGenCrc8 info.data, data := x } := by
  -- 256 rounds are enough: the loop takes one for each byte before the stuffing.
  have hloop : unpackLoop (fun i => (proPackData info).getD (PRO_IDX_PKT_HEADER_LEN + i) 0)
      info.data.length 256 0 [] = some x := by
    have hx := length_le_stuff x
    rw [← hdata] at hx
    have h := unpackLoop_stuff (fun i => (proPackData info).getD (PRO_IDX_PKT_HEADER_LEN + i) 0)
      info.data.length hlen x 256 0 [] (by rw [← hdata]; omega) (by omega) (by
        intro i _
        rw [proPackData_eq info hlen, ← hdata]
        simp [PRO_IDX_PKT_HEADER_LEN, Nat.add_comm 5 i])
    simpa using h
  obtain ⟨hdev, hcmd, hnum⟩ := idCmdNum_decode info.devId info.cmd info.num info.data
  have hcrc := crcField_decode (proGenCrc8 info.data)
  rw [proPackData_length_byte info hlen]
  unfold proUnpackPkg
  rw [hloop]
  rw [proPackData_eq info hlen]
  simp only [Option.bind_eq_bind, Option.bind_some, List.getD_cons_succ, List.getD_cons_zero,
    Option.pure_def, Option.some.injEq, ProPacketInfo.mk.injEq]
  exact ⟨hdev, hcmd, hnum, hcrc, trivial⟩

/-- A frame passes the CRC check of `deal_with_indata`. -/
theorem crcMatches_proPackData (info dataInfo : ProPacketInfo)
    (hlen : info.data.length ≤ 250) (hcrc : dataInfo.crc8 = proGenCrc8 info.data) :
    crcMatches (proPackData info) dataInfo = true := by
  unfold crcMatches
  rw [proPackData_length_byte info hlen, proPackData_eq info hlen, hcrc]
  simp [PRO_IDX_PKT_HEADER_LEN]

/-- `deal_with_indata` on a data frame is `rx_data_info` on the packet it was packed from. -/
theorem dealWithIndata_data_frame (w : World) (alloc : Alloc) (info : ProPacketInfo)
    (x : List Byte) (hdata : info.data = stuff x) (hlen : info.data.length ≤ 250)
    (hcmd : info.cmd = .sof ∨ info.cmd = .tx ∨ info.cmd = .eof) :
    dealWithIndata w alloc (proPackData info) =
      rxDataInfo w alloc { info with crc8 := proGenCrc8 info.data, data := x } := by
  unfold dealWithIndata
  rw [proUnpackPkg_proPackData info x hdata hlen]
  simp only [Option.bind_eq_bind, Option.bind_some,
    crcMatches_proPackData info { info with crc8 := proGenCrc8 info.data, data := x } hlen rfl]
  -- The three commands lead to the same call.
  rcases hcmd with h | h | h <;> simp [h]

end LearnGit.Proofs.Uart
