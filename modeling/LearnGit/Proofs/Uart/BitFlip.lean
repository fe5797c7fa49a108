import LearnGit.Lib.Bytes
import LearnGit.Proofs.Uart.ThreadRx

/-!
# `LearnGit.Proofs.Uart.BitFlip`: frames with a flipped bit

The CRC of a frame covers the payload and not the header. `flipped_bit_accepted` says what a
single flipped bit can do, in whatever pieces the frame is read: the packet that is accepted is
the one that was sent, or the flip is one of three kinds (`Unprotected`). A flip in the command
or the number that leaves a command is always accepted.

Every buffer that is given to `deal_with_indata` begins at a start byte of what was sent
(`accepted_window`), and as long as the header at the front is good, that is the first byte. A
flip in the payload changes the CRC, since each round of `calcrc_bytes` can be undone
(`uncalcrc1byte`).
-/

set_option autoImplicit false

namespace LearnGit.Proofs.Uart

open LearnGit.Lib
open LearnGit.Uart.Link

/-! ### Statement -/

/-- The bit `j` of the byte `i` is flipped. -/
def flipBit (f : List Byte) (i j : Nat) : List Byte := f.modify i (· ^^^ (1 <<< UInt8.ofNat j))

/-- A packet for device 1 whose payload is `x`, stuffed. -/
structure ValidPacket (info : ProPacketInfo) (x : List Byte) : Prop where
  data : info.data = stuff x
  devId : info.devId = 1
  notTimeout : info.cmd ≠ .timeout
  notInvalid : info.cmd ≠ .invalid
  short : info.data.length ≤ PRO_MAX_DATADOMAIN_SIZE

/-- The packet is the one of the frame, with the payload `x` before it was stuffed. -/
def Carries (info : ProPacketInfo) (x : List Byte) (p : ProPacketInfo) : Prop :=
  p.cmd = info.cmd ∧ p.num = info.num ∧ p.data = x

/-- The CRC that a frame carries. -/
def crcOf (g : List Byte) : Byte :=
  if g.getD 3 0 = 0xFF then unescape (g.getD 4 0) else g.getD 3 0

/-- The bytes begin with a whole frame whose header and CRC are right. -/
def PassesCheck (g : List Byte) : Prop :=
  ∃ h, getDataHead g = some h ∧ h.length + PRO_IDX_PKT_HEADER_LEN ≤ g.length ∧
    proGenCrc8 ((g.drop PRO_IDX_PKT_HEADER_LEN).take h.length) = crcOf g

/-- The flips that the CRC cannot find: in the command or the number, in the length when a
shorter payload has the same CRC, and in the first two bytes when the frame has a second start
byte and what follows it passes for a frame. -/
def Unprotected (info : ProPacketInfo) (f' : List Byte) (i j : Nat) : Prop :=
  (i = 1 ∧ j ≤ 4 ∧ getDataHead f' ≠ none) ∨
  (i = 2 ∧ (f'.getD 2 0).toNat < info.data.length ∧
    proGenCrc8 (info.data.take (f'.getD 2 0).toNat) = proGenCrc8 info.data) ∨
  (i ≤ 1 ∧ ∃ k, (k = 1 ∨ k = 2) ∧ f'[k]? = some PRO_PKT_START_CHAR ∧ PassesCheck (f'.drop k))

/-! ### The CRC of a payload with one other byte -/

/-- A round of `calcrc_1byte` backwards, eight times. -/
def uncalcrc1byte : Nat → Byte → Byte
  | 0, crc => crc
  | i + 1, crc =>
    uncalcrc1byte i (if crc &&& 0x80 ≠ 0 then ((crc ^^^ 0x8C) <<< 1) ||| 1 else crc <<< 1)

/-- The code of a byte can be taken back. -/
theorem uncalcrc1byte_calcrc1byte : ∀ c : Byte, uncalcrc1byte 8 (calcrc1byte c) = c :=
  byte_forall (by decide +kernel)

/-- Two bytes with one code are equal. -/
theorem calcrc1byte_injective {a b : Byte} (h : calcrc1byte a = calcrc1byte b) : a = b := by
  rw [← uncalcrc1byte_calcrc1byte a, h, uncalcrc1byte_calcrc1byte b]

/-- Different accumulators stay different. -/
theorem calcrcFold_injective (q : List Byte) :
    ∀ {a b : Byte}, q.foldl (fun crc b => calcrc1byte (crc ^^^ b)) a
      = q.foldl (fun crc b => calcrc1byte (crc ^^^ b)) b → a = b := by
  induction q with
  | nil =>
    intro a b h
    exact h
  | cons c q ih =>
    intro a b h
    exact (UInt8.xor_left_inj c).mp (calcrc1byte_injective (ih h))

/-- A payload with one other byte has another CRC. -/
theorem proGenCrc8_injective {p q : List Byte} {b c : Byte}
    (h : proGenCrc8 (p ++ b :: q) = proGenCrc8 (p ++ c :: q)) : b = c := by
  simp only [proGenCrc8, calcrcBytes, List.foldl_append, List.foldl_cons] at h
  have hxor := calcrc1byte_injective (calcrcFold_injective q h)
  exact (UInt8.xor_right_inj _).mp hxor

/-! ### What is given to `deal_with_indata` -/

/-- A buffer that begins at the byte `k` of `f`, with a whole frame. -/
def WindowAt (f : List Byte) (k : Nat) (buf : List Byte) : Prop :=
  ∃ m h rest, buf = (f.take m).drop k ++ rest ∧ f[k]? = some PRO_PKT_START_CHAR ∧
    getDataHead ((f.take m).drop k) = some h ∧
    h.length + PRO_IDX_PKT_HEADER_LEN ≤ ((f.take m).drop k).length

/-- The buffer begins at the first start byte. -/
theorem indataBuffer_split {s : RxLoop} {buf : List Byte} (hbuf : indataBuffer s = some buf) :
    ∃ skip d h rest, s.content = skip ++ d ∧ PRO_PKT_START_CHAR ∉ skip ∧
      d.head? = some PRO_PKT_START_CHAR ∧ getDataHead d = some h ∧
      h.length + PRO_IDX_PKT_HEADER_LEN ≤ d.length ∧ buf = d ++ rest := by
  rw [indataBuffer] at hbuf
  rcases checkBuffer_cases s with ⟨-, hcb⟩ | ⟨skip, d, rest, hsplit, hskip, hhead, hcb⟩
  · rw [hcb] at hbuf
    exact nomatch hbuf
  · rw [hcb, Option.bind_eq_bind, Option.bind_some] at hbuf
    dsimp only at hbuf
    split at hbuf
    · exact nomatch hbuf
    · cases hh : getDataHead d with
      | none =>
        rw [hh] at hbuf
        exact nomatch hbuf
      | some h =>
        rw [hh, Option.bind_eq_bind, Option.bind_some] at hbuf
        split at hbuf
        · exact nomatch hbuf
        · rename_i hge
          exact ⟨skip, d, h, rest, hsplit, hskip, hhead, hh, Nat.not_lt.mp hge,
            (Option.some.inj hbuf).symm⟩

/-- `f` begins with a start byte and a good header, and its frame has `K` bytes. Without such a
front, `K` is 0. -/
def Front (f : List Byte) (K : Nat) : Prop :=
  K = 0 ∨ (f.head? = some PRO_PKT_START_CHAR ∧
    ∃ h, getDataHead f = some h ∧ K = h.length + PRO_IDX_PKT_HEADER_LEN)

/-- After `m` bytes of `f`, the loop holds those from `k` on, behind bytes in which no frame can
start. While the front is incomplete, these are all bytes. -/
def Tracks (f : List Byte) (K m : Nat) (s : RxLoop) : Prop :=
  ∃ k junk, s.content = junk ++ (f.take m).drop k ∧ PRO_PKT_START_CHAR ∉ junk ∧ k ≤ m ∧
    (k = 0 ∧ junk = [] ∨ K ≤ k)

/-- The first start byte of the buffer is a byte of `f`. -/
theorem split_junk {junk g skip d : List Byte} (hjunk : PRO_PKT_START_CHAR ∉ junk)
    (hhead : d.head? = some PRO_PKT_START_CHAR)
    (h : junk ++ g = skip ++ d) : ∃ n, skip = junk ++ g.take n ∧ d = g.drop n := by
  rcases List.append_eq_append_iff.mp h with ⟨a, ha, hg⟩ | ⟨a, ha, hd⟩
  · refine ⟨a.length, ?_, ?_⟩
    · rw [hg, List.take_left, ha]
    · rw [hg, List.drop_left]
  · cases a with
    | nil => exact ⟨0, by simpa using ha.symm, by simpa using hd⟩
    | cons c a =>
      rw [hd] at hhead
      obtain rfl : c = PRO_PKT_START_CHAR := by simpa using hhead
      exact absurd (ha ▸ List.mem_append_right skip List.mem_cons_self) hjunk

/-- The bytes from the first start byte on, after a read. They begin at the front as long as it
is not complete. -/
theorem tracks_split {f : List Byte} {K m : Nat} (hfront : Front f K) {k : Nat} {junk : List Byte}
    (hjunk : PRO_PKT_START_CHAR ∉ junk) (hk : k = 0 ∧ junk = [] ∨ K ≤ k) {skip d : List Byte}
    (hskip : PRO_PKT_START_CHAR ∉ skip) (hhead : d.head? = some PRO_PKT_START_CHAR)
    (h : junk ++ (f.take m).drop k = skip ++ d) :
    ∃ k', k' < m ∧ d = (f.take m).drop k' ∧ f[k']? = some PRO_PKT_START_CHAR ∧
      (k' = 0 ∨ K ≤ k') := by
  obtain ⟨n, hskip', hd⟩ := split_junk hjunk hhead h
  rw [List.drop_drop] at hd
  have hget : (f.take m)[k + n]? = some PRO_PKT_START_CHAR := by
    rw [← List.head?_drop, ← hd, hhead]
  have hlt : k + n < m := by
    have hlen := (List.getElem?_eq_some_iff.mp hget).1
    rw [List.length_take] at hlen
    omega
  rw [List.getElem?_take_of_lt hlt] at hget
  refine ⟨k + n, hlt, hd, hget, ?_⟩
  rcases hk with ⟨rfl, rfl⟩ | hk
  · rcases hfront with rfl | ⟨hstart, -⟩
    · exact Or.inr (Nat.zero_le _)
    · -- The front has its start byte, so nothing is cut off.
      left
      rcases Nat.eq_zero_or_pos n with hn | hn
      · omega
      · refine absurd ?_ hskip
        rw [hskip', List.nil_append, List.drop_zero]
        refine List.mem_of_mem_head? ?_
        rw [List.head?_take, if_neg (by omega), List.head?_take, if_neg (by omega)]
        exact hstart
  · exact Or.inr (by omega)

/-- The header of the front is the same in every piece of the frame that has it. -/
theorem Front.head {f : List Byte} {K m : Nat} (hfront : Front f K) (hK : K ≠ 0)
    (hlong : PRO_IDX_PKT_HEADER_LEN ≤ (f.take m).length) :
    ∃ h, getDataHead (f.take m) = some h ∧ K = h.length + PRO_IDX_PKT_HEADER_LEN := by
  rcases hfront with h0 | ⟨-, h, hh, hKh⟩
  · exact absurd h0 hK
  · refine ⟨h, ?_, hKh⟩
    rw [← hh]
    rw [PRO_IDX_PKT_HEADER_LEN, List.length_take] at hlong
    refine getDataHead_congr ?_ ?_ <;>
      rw [List.getD_eq_getElem?_getD, List.getD_eq_getElem?_getD,
        List.getElem?_take_of_lt (by omega)]

/-- A read keeps track. -/
theorem tracks_read {f : List Byte} {K m : Nat} (hfront : Front f K) {s : RxLoop}
    (h : Tracks f K m s) (hm : 0 < m) : Tracks f K m (threadRxCheck s) := by
  obtain ⟨k, junk, hcontent, hjunk, hkm, hk⟩ := h
  have hdrop : (f.take m).drop m = [] := List.drop_eq_nil_of_le (List.length_take_le m f)
  rcases threadRxCheck_cases s with ⟨hmem, hc, -⟩ | ⟨skip, d, hsplit, hskip, hhead, hout⟩
  · -- No start byte, so the front is not there and everything is dropped.
    refine ⟨m, [], ?_, List.not_mem_nil, Nat.le_refl m, ?_⟩
    · rw [hc, hdrop, List.append_nil]
    · rcases hk with ⟨rfl, rfl⟩ | hk
      · rcases hfront with rfl | ⟨hstart, -⟩
        · exact Or.inr (Nat.zero_le m)
        · refine absurd ?_ hmem
          rw [hcontent, List.nil_append, List.drop_zero]
          refine List.mem_of_mem_head? ?_
          rw [List.head?_take, if_neg (by omega)]
          exact hstart
      · exact Or.inr (Nat.le_trans hk hkm)
  · obtain ⟨k', hlt, hd, hget, hk'⟩ := tracks_split hfront hjunk hk hskip hhead
      (hcontent.symm.trans hsplit)
    have hlen : d.length ≤ m - k' := by
      rw [hd, List.length_drop, List.length_take]
      omega
    -- The bytes from the start byte on are kept as they are.
    have hkeep : Tracks f K m { content := d, rest := (threadRxCheck s).rest, handed := s.handed } :=
      ⟨k', [], hd, List.not_mem_nil, Nat.le_of_lt hlt, hk'.imp_left fun h0 => ⟨h0, rfl⟩⟩
    have hgood : k' = 0 → K ≠ 0 → PRO_IDX_PKT_HEADER_LEN ≤ d.length →
        ∃ h, getDataHead d = some h ∧ K = h.length + PRO_IDX_PKT_HEADER_LEN := by
      rintro rfl hK hlong
      rw [List.drop_zero] at hd
      rw [hd] at hlong ⊢
      exact hfront.head hK hlong
    generalize hs' : threadRxCheck s = s' at hout hkeep
    cases hout with
    | short rest _ => exact hkeep
    | incomplete rest _ _ _ => exact hkeep
    | badHead rest hlong hnone =>
      -- The start byte is overwritten, and a frame can begin only behind it.
      refine ⟨k' + 1, [0x00], ?_, by decide, hlt, Or.inr ?_⟩
      · have hcons : d = PRO_PKT_START_CHAR :: (f.take m).drop (k' + 1) := by
          rw [hd]
          refine List.drop_eq_getElem?_toList_append.trans ?_
          rw [List.getElem?_take_of_lt hlt, hget]
          rfl
        rw [hcons]
        rfl
      · rcases hk' with h0 | hK
        · rcases Nat.eq_zero_or_pos K with hK | hK
          · omega
          · obtain ⟨h, hh, -⟩ := hgood h0 (by omega) hlong
            exact absurd (hnone.symm.trans hh) (by simp)
        · omega
    | complete h hh hge =>
      refine ⟨m, [], hdrop.symm, List.not_mem_nil, Nat.le_refl m, Or.inr ?_⟩
      rcases hk' with h0 | hK
      · rcases Nat.eq_zero_or_pos K with hK | hK
        · omega
        · obtain ⟨h', hh', hK'⟩ := hgood h0 (by omega) (by omega)
          rw [hh] at hh'
          rw [← Option.some.inj hh'] at hK'
          omega
      · omega

/-- What is given to `deal_with_indata` after a read. -/
theorem indataBuffer_window {f : List Byte} {K m : Nat} (hfront : Front f K) {s : RxLoop}
    (h : Tracks f K m s) {buf : List Byte} (hbuf : indataBuffer s = some buf) :
    ∃ k, (k = 0 ∨ K ≤ k) ∧ WindowAt f k buf := by
  obtain ⟨k, junk, hcontent, hjunk, -, hk⟩ := h
  obtain ⟨skip, d, h, rest, hsplit, hskip, hhead, hh, hge, rfl⟩ := indataBuffer_split hbuf
  obtain ⟨k', -, hd, hget, hk'⟩ := tracks_split hfront hjunk hk hskip hhead
    (hcontent.symm.trans hsplit)
  rw [hd] at hh hge
  exact ⟨k', hk', m, h, rest, by rw [hd], hget, hh, hge⟩

/-- Every packet that is accepted comes from such a buffer. -/
theorem accepted_window {f : List Byte} {K : Nat} (hfront : Front f K) (reads : List (List Byte)) :
    ∀ (m : Nat) (s : RxLoop), Tracks f K m s → f.drop m = reads.flatten → m ≤ f.length →
      ∀ p ∈ acceptedPackets s reads, ∃ k buf, (k = 0 ∨ K ≤ k) ∧ WindowAt f k buf ∧
        acceptPacket buf = some p := by
  induction reads with
  | nil =>
    intro m s _ _ _ p hp
    exact nomatch hp
  | cons read reads ih =>
    intro m s htracks hdrop hm p hp
    cases read with
    | nil => exact ih m s htracks hdrop hm p hp
    | cons b bs =>
      rw [List.flatten_cons] at hdrop
      have hlen := congrArg List.length hdrop
      rw [List.length_drop, List.length_append] at hlen
      have htake : f.take (m + (b :: bs).length) = f.take m ++ b :: bs := by
        rw [List.take_add, hdrop, List.take_left]
      have hrest : f.drop (m + (b :: bs).length) = reads.flatten := by
        rw [← List.drop_drop, hdrop, List.drop_left]
      obtain ⟨k, junk, hcontent, hjunk, hkm, hk⟩ := htracks
      -- The buffer before the check.
      have hread : Tracks f K (m + (b :: bs).length)
          { s with content := s.content ++ b :: bs, rest := s.rest.drop (b :: bs).length } := by
        refine ⟨k, junk, ?_, hjunk, by omega, hk⟩
        dsimp only
        rw [hcontent, htake, List.append_assoc, List.drop_append_of_le_length]
        rw [List.length_take]
        omega
      rcases List.mem_append.mp hp with hp | hp
      · obtain ⟨buf, hbuf, hacc⟩ := Option.bind_eq_some_iff.mp (Option.mem_toList.mp hp)
        obtain ⟨k', hk', hwin⟩ := indataBuffer_window hfront hread hbuf
        exact ⟨k', buf, hk', hwin, hacc⟩
      · have hpos : 0 < m + (b :: bs).length := by
          rw [List.length_cons]
          omega
        exact ih _ _ (tracks_read hfront hread hpos) hrest (by omega) p hp

/-! ### What a flip changes -/

/-- A flipped bit makes another byte. -/
theorem flip_ne {j : Nat} (hj : j < 8) (b : Byte) : b ^^^ (1 <<< UInt8.ofNat j) ≠ b := by
  have hbit : ∀ j : Fin 8, (1 : Byte) <<< UInt8.ofNat j.val ≠ 0 := by decide
  intro he
  exact hbit ⟨j, hj⟩ ((UInt8.xor_right_inj b).mp (he.trans UInt8.xor_zero.symm))

/-- A packet that is accepted has the right CRC. -/
theorem acceptPacket_some {buf : List Byte} {p : ProPacketInfo} (h : acceptPacket buf = some p) :
    proGenCrc8 ((buf.drop PRO_IDX_PKT_HEADER_LEN).take (buf.getD 2 0).toNat) = crcOf buf ∧
    p.cmd = ProtocolCmd.ofByte (buf.getD 1 0 >>> 2) ∧
    p.num = Fin.ofNat 4 (buf.getD 1 0 &&& 0x03).toNat ∧
    unpackLoop (fun i => buf.getD (PRO_IDX_PKT_HEADER_LEN + i) 0) (buf.getD 2 0).toNat 256 0 []
      = some p.data := by
  obtain ⟨info, hunpack, hcheck⟩ := Option.bind_eq_some_iff.mp h
  obtain ⟨data, hdata, hinfo⟩ := Option.bind_eq_some_iff.mp hunpack
  split at hcheck
  · rename_i hcrc
    rw [Option.some.inj hcheck] at hinfo hcrc
    rw [← Option.some.inj hinfo] at hcrc ⊢
    exact ⟨by simpa [crcMatches, crcOf] using hcrc, rfl, rfl, hdata⟩
  · exact nomatch hcheck

/-- A packet is accepted when its payload can be unpacked and the CRC is right. -/
theorem acceptPacket_of_crc {buf x : List Byte}
    (hloop : unpackLoop (fun i => buf.getD (PRO_IDX_PKT_HEADER_LEN + i) 0) (buf.getD 2 0).toNat
      256 0 [] = some x)
    (hcrc : proGenCrc8 ((buf.drop PRO_IDX_PKT_HEADER_LEN).take (buf.getD 2 0).toNat) = crcOf buf) :
    ∃ p, acceptPacket buf = some p := by
  have hunpack : ∃ info, proUnpackPkg buf (buf.getD 2 0).toNat = some info ∧
      info.crc8 = crcOf buf := by
    rw [proUnpackPkg, hloop]
    exact ⟨_, rfl, rfl⟩
  obtain ⟨info, hinfo, hcrc8⟩ := hunpack
  refine ⟨info, ?_⟩
  rw [acceptPacket, hinfo, Option.bind_eq_bind, Option.bind_some, if_pos]
  rw [crcMatches, hcrc, hcrc8]
  exact beq_self_eq_true _

/-- A frame that passes the check does so whatever follows. -/
theorem PassesCheck.append {g : List Byte} (h : PassesCheck g) (t : List Byte) :
    PassesCheck (g ++ t) := by
  obtain ⟨h, hh, hlen, hcrc⟩ := h
  rw [PRO_IDX_PKT_HEADER_LEN] at hlen hcrc
  refine ⟨h, ?_, ?_, ?_⟩
  · rw [← hh]
    exact getDataHead_congr (List.getD_append _ _ _ _ (by omega))
      (List.getD_append _ _ _ _ (by omega))
  · rw [List.length_append, PRO_IDX_PKT_HEADER_LEN]
    omega
  · rw [PRO_IDX_PKT_HEADER_LEN, List.drop_append_of_le_length (by omega),
      List.take_append_of_le_length (by rw [List.length_drop]; omega), hcrc, crcOf, crcOf,
      List.getD_append _ _ _ _ (by omega), List.getD_append _ _ _ _ (by omega)]

/-- What is accepted from a buffer passes the check where it begins. -/
theorem passesCheck_of_window {f buf : List Byte} {k : Nat} {p : ProPacketInfo}
    (hwin : WindowAt f k buf) (hacc : acceptPacket buf = some p) : PassesCheck (f.drop k) := by
  obtain ⟨m, h, rest, rfl, -, hh, hlen⟩ := hwin
  obtain ⟨hcrc, -⟩ := acceptPacket_some hacc
  generalize hg : (f.take m).drop k = g at hh hlen hcrc
  have hpass : PassesCheck g := by
    have hlength := getDataHead_length hh
    refine ⟨h, hh, hlen, ?_⟩
    rw [PRO_IDX_PKT_HEADER_LEN] at hlen hcrc ⊢
    rw [crcOf, List.getD_append _ _ _ _ (by omega), List.getD_append _ _ _ _ (by omega),
      List.getD_append _ _ _ _ (by omega), ← hlength, List.drop_append_of_le_length (by omega),
      List.take_append_of_le_length (by rw [List.length_drop]; omega)] at hcrc
    exact hcrc
  have hdrop : f.drop k = g ++ f.drop m := by
    have hkm : k ≤ (f.take m).length := by
      have hpos := congrArg List.length hg
      rw [List.length_drop] at hpos
      rw [PRO_IDX_PKT_HEADER_LEN] at hlen
      omega
    rw [← hg, ← List.drop_append_of_le_length hkm, List.take_append_drop]
  rw [hdrop]
  exact hpass.append _

/-- A stuffed payload has no start byte. -/
theorem start_notMem_stuff (x : List Byte) : PRO_PKT_START_CHAR ∉ stuff x := by
  intro hmem
  obtain ⟨b, -, hb⟩ := List.mem_flatMap.mp hmem
  rw [stuffByte] at hb
  split at hb
  · exact absurd hb (by decide)
  · split at hb
    · exact absurd hb (by decide)
    · split at hb
      · exact absurd hb (by decide)
      · rename_i hne
        exact hne (List.mem_singleton.mp hb).symm

/-- Neither have the bytes of the CRC. -/
theorem crcField_ne_start (c : Byte) :
    (crcField c).1 ≠ PRO_PKT_START_CHAR ∧ (crcField c).2 ≠ PRO_PKT_START_CHAR := by
  rw [crcField]
  split
  · decide
  · split
    · decide
    · split
      · decide
      · rename_i hne
        exact ⟨fun h => hne h.symm, fun h => hne h.symm⟩

/-! ### The kinds of flips -/

section Flips

variable {info : ProPacketInfo} {x : List Byte}

/-- The five bytes of the header and the payload, as they are sent. -/
theorem ValidPacket.frame_eq (hv : ValidPacket info x) :
    proPackData info = PRO_PKT_START_CHAR :: idCmdNum info :: UInt8.ofNat info.data.length ::
      (crcField (proGenCrc8 info.data)).1 :: (crcField (proGenCrc8 info.data)).2 ::
      info.data := by
  have hlen := hv.short
  rw [PRO_MAX_DATADOMAIN_SIZE] at hlen
  exact proPackData_eq info (by omega)

/-- The length of a valid packet's data is a byte. -/
theorem ValidPacket.length_toNat (hv : ValidPacket info x) :
    (UInt8.ofNat info.data.length).toNat = info.data.length := by
  have hlen := hv.short
  rw [PRO_MAX_DATADOMAIN_SIZE] at hlen
  rw [UInt8.toNat_ofNat']
  exact Nat.mod_eq_of_lt (by omega)

/-- No byte of a valid packet's data is the start character. -/
theorem ValidPacket.start_notMem (hv : ValidPacket info x) : PRO_PKT_START_CHAR ∉ info.data := by
  rw [hv.data]
  exact start_notMem_stuff x

/-- The header of a frame with this id byte. -/
theorem getDataHead_of_id {b id n : Byte} {rest : List Byte} (hv : ValidPacket info x)
    (hid : id = idCmdNum info) : ∃ h, getDataHead (b :: id :: n :: rest) = some h ∧
      h.length = n.toNat := by
  obtain ⟨hdev, hcmd, -⟩ := idCmdNum_decode info.devId info.cmd info.num info.data
  have hdev' : Fin.ofNat 8 ((id >>> 5) &&& (0x07 : Byte)).toNat = 1 := by
    rw [hid, ← hv.devId]
    exact hdev
  have hcmd' : ProtocolCmd.ofByte (id >>> 2) = info.cmd := by
    rw [hid]
    exact hcmd
  have htime := hv.notTimeout
  have hinv := hv.notInvalid
  have hhead : ∃ h, getDataHead (b :: id :: n :: rest) = some h := by
    simp only [getDataHead, List.getD_cons_succ, List.getD_cons_zero, hdev', hcmd']
    cases hc : info.cmd <;> simp_all
  obtain ⟨h, hh⟩ := hhead
  exact ⟨h, hh, getDataHead_length hh⟩

/-- The id byte is no start byte. -/
theorem ValidPacket.id_ne_start (hv : ValidPacket info x) : idCmdNum info ≠ PRO_PKT_START_CHAR := by
  intro he
  obtain ⟨hdev, -⟩ := idCmdNum_decode info.devId info.cmd info.num info.data
  have hdev' : Fin.ofNat 8 ((idCmdNum info >>> 5) &&& (0x07 : Byte)).toNat = 1 := by
    rw [← hv.devId]
    exact hdev
  rw [he] at hdev'
  exact absurd hdev' (by decide)

/-- Where a start byte can stand behind the first two bytes of a frame. -/
theorem start_at (hv : ValidPacket info x) {a b : Byte} {k : Nat}
    (h : (a :: b :: UInt8.ofNat info.data.length :: (crcField (proGenCrc8 info.data)).1 ::
      (crcField (proGenCrc8 info.data)).2 :: info.data)[k]? = some PRO_PKT_START_CHAR) :
    k = 0 ∧ a = PRO_PKT_START_CHAR ∨ k = 1 ∧ b = PRO_PKT_START_CHAR ∨ k = 2 := by
  obtain ⟨hc1, hc2⟩ := crcField_ne_start (proGenCrc8 info.data)
  match k with
  | 0 => exact Or.inl ⟨rfl, Option.some.inj h⟩
  | 1 => exact Or.inr (Or.inl ⟨rfl, Option.some.inj h⟩)
  | 2 => exact Or.inr (Or.inr rfl)
  | 3 => exact absurd (Option.some.inj h) hc1
  | 4 => exact absurd (Option.some.inj h) hc2
  | k + 5 =>
    have hdata : info.data[k]? = some PRO_PKT_START_CHAR := h
    exact absurd (List.mem_of_getElem? hdata) hv.start_notMem

/-- A flip in the start byte. -/
theorem accepted_flip_start (hv : ValidPacket info x) {j : Nat} (hj : j < 8)
    {reads : List (List Byte)} (hreads : reads.flatten = flipBit (proPackData info) 0 j)
    {p : ProPacketInfo} (hp : p ∈ acceptedPackets RxLoop.init reads) :
    Unprotected info (flipBit (proPackData info) 0 j) 0 j := by
  generalize hf : flipBit (proPackData info) 0 j = f' at hreads
  have htracks : Tracks f' 0 0 RxLoop.init :=
    ⟨0, [], rfl, List.not_mem_nil, Nat.le_refl 0, Or.inr (Nat.le_refl 0)⟩
  obtain ⟨k, buf, -, hwin, hacc⟩ := accepted_window (Or.inl rfl) reads 0 RxLoop.init htracks
    hreads.symm (Nat.zero_le _) p hp
  have hpass := passesCheck_of_window hwin hacc
  obtain ⟨-, -, -, -, hget, -⟩ := hwin
  have hstart := hget
  rw [← hf, hv.frame_eq] at hstart
  rcases start_at hv hstart with ⟨-, ha⟩ | ⟨-, hb⟩ | rfl
  · exact absurd ha (flip_ne hj _)
  · exact absurd hb hv.id_ne_start
  · exact Or.inr (Or.inr ⟨by omega, 2, Or.inr rfl, hget, hpass⟩)

/-- A flip of a bit of the device is seen in the header. -/
theorem flip_devId_ne (b : Byte) (j : Fin 8) (hj : 5 ≤ j.val)
    (h : Fin.ofNat 8 ((b >>> 5) &&& (0x07 : Byte)).toNat = 1) :
    Fin.ofNat 8 (((b ^^^ (1 <<< UInt8.ofNat j.val)) >>> 5) &&& (0x07 : Byte)).toNat ≠ 1 := by
  intro hflip
  have hsame := and_eq_of_ofNat_eq (by decide) (hflip.trans h.symm)
  rw [UInt8.shiftRight_xor] at hsame
  have hseen : ∀ j : Fin 8, 5 ≤ j.val →
      ((1 <<< UInt8.ofNat j.val) >>> 5) &&& (0x07 : Byte) ≠ 0 := by
    decide
  exact hseen j hj (and_eq_zero_of_xor hsame)

/-- A flip in the device byte that leaves a frame is one of its low five bits. -/
theorem flip_devId (hv : ValidPacket info x) {j : Nat} (hj : j < 8)
    (hhead : getDataHead (flipBit (proPackData info) 1 j) ≠ none) : j ≤ 4 := by
  obtain ⟨hdev, -⟩ := idCmdNum_decode info.devId info.cmd info.num info.data
  have hdev' : Fin.ofNat 8 ((idCmdNum info >>> 5) &&& (0x07 : Byte)).toNat = 1 := by
    rw [← hv.devId]
    exact hdev
  by_contra hge
  have hseen := flip_devId_ne (idCmdNum info) ⟨j, hj⟩ (Nat.lt_of_not_le hge) hdev'
  refine hhead ?_
  rw [hv.frame_eq]
  exact if_pos hseen

/-- A flip in the byte of the device, the command and the number. -/
theorem accepted_flip_id (hv : ValidPacket info x) {j : Nat} (hj : j < 8)
    {reads : List (List Byte)} (hreads : reads.flatten = flipBit (proPackData info) 1 j)
    {p : ProPacketInfo} (hp : p ∈ acceptedPackets RxLoop.init reads) :
    Unprotected info (flipBit (proPackData info) 1 j) 1 j := by
  by_cases hhead : getDataHead (flipBit (proPackData info) 1 j) = none
  · generalize hf : flipBit (proPackData info) 1 j = f' at hreads hhead
    have htracks : Tracks f' 0 0 RxLoop.init :=
      ⟨0, [], rfl, List.not_mem_nil, Nat.le_refl 0, Or.inr (Nat.le_refl 0)⟩
    obtain ⟨k, buf, -, hwin, hacc⟩ := accepted_window (Or.inl rfl) reads 0 RxLoop.init htracks
      hreads.symm (Nat.zero_le _) p hp
    have hpass := passesCheck_of_window hwin hacc
    obtain ⟨-, -, -, -, hget, -⟩ := hwin
    have hstart := hget
    rw [← hf, hv.frame_eq] at hstart
    rcases start_at hv hstart with ⟨rfl, -⟩ | ⟨rfl, -⟩ | rfl
    · -- The header at the front is not good.
      obtain ⟨h, hh, -⟩ := hpass
      exact absurd (hhead.symm.trans hh) (by simp)
    · exact Or.inr (Or.inr ⟨Nat.le_refl 1, 1, Or.inl rfl, hget, hpass⟩)
    · exact Or.inr (Or.inr ⟨Nat.le_refl 1, 2, Or.inr rfl, hget, hpass⟩)
  · exact Or.inl ⟨rfl, flip_devId hv hj hhead, hhead⟩

/-- Behind a good front, buffers begin at the front or behind its frame. -/
theorem accepted_front (hv : ValidPacket info x) {n : Byte} {r : List Byte}
    {reads : List (List Byte)}
    (hreads : reads.flatten = PRO_PKT_START_CHAR :: idCmdNum info :: n :: r) {p : ProPacketInfo}
    (hp : p ∈ acceptedPackets RxLoop.init reads) :
    ∃ k buf, (k = 0 ∨ n.toNat + PRO_IDX_PKT_HEADER_LEN ≤ k) ∧
      WindowAt (PRO_PKT_START_CHAR :: idCmdNum info :: n :: r) k buf ∧
      acceptPacket buf = some p := by
  obtain ⟨h, hh, hlen⟩ := getDataHead_of_id hv (rfl : idCmdNum info = idCmdNum info)
  rw [← hlen]
  refine accepted_window (Or.inr ⟨rfl, h, hh, rfl⟩) reads 0 RxLoop.init ?_ hreads.symm
    (Nat.zero_le _) p hp
  exact ⟨0, [], rfl, List.not_mem_nil, Nat.le_refl 0, Or.inl ⟨rfl, rfl⟩⟩

/-- A flip in the length. -/
theorem accepted_flip_length (hv : ValidPacket info x) {j : Nat} (hj : j < 8)
    {reads : List (List Byte)} (hreads : reads.flatten = flipBit (proPackData info) 2 j)
    {p : ProPacketInfo} (hp : p ∈ acceptedPackets RxLoop.init reads) :
    Unprotected info (flipBit (proPackData info) 2 j) 2 j := by
  obtain ⟨n, hn⟩ : ∃ n, n = UInt8.ofNat info.data.length ^^^ (1 <<< UInt8.ofNat j) := ⟨_, rfl⟩
  have hne : n ≠ UInt8.ofNat info.data.length := hn ▸ flip_ne hj _
  have hf : flipBit (proPackData info) 2 j = PRO_PKT_START_CHAR :: idCmdNum info :: n ::
      (crcField (proGenCrc8 info.data)).1 :: (crcField (proGenCrc8 info.data)).2 :: info.data := by
    rw [hv.frame_eq, hn]
    rfl
  rw [hf] at hreads ⊢
  obtain ⟨k, buf, hk, hwin, hacc⟩ := accepted_front hv hreads hp
  have hpass := passesCheck_of_window hwin hacc
  obtain ⟨-, -, -, -, hget, -⟩ := hwin
  rcases hk with rfl | hk
  · obtain ⟨h, hh, hlen, hcrc⟩ := hpass
    have hlength : h.length = n.toNat := getDataHead_length hh
    -- The whole frame is there, so the length has become smaller.
    have hle : n.toNat ≤ info.data.length := by
      simp only [List.drop_zero, List.length_cons, PRO_IDX_PKT_HEADER_LEN] at hlen
      omega
    have hlt : n.toNat ≠ info.data.length := by
      intro he
      exact hne (UInt8.toNat_inj.mp (he.trans hv.length_toNat.symm))
    refine Or.inr (Or.inl ⟨rfl, Nat.lt_of_le_of_ne hle hlt, ?_⟩)
    rw [hlength] at hcrc
    exact hcrc.trans (crcField_decode (proGenCrc8 info.data))
  · obtain ⟨k', rfl⟩ : ∃ k', k = k' + 5 := ⟨k - 5, by rw [PRO_IDX_PKT_HEADER_LEN] at hk; omega⟩
    have hdata : info.data[k']? = some PRO_PKT_START_CHAR := hget
    exact absurd (List.mem_of_getElem? hdata) hv.start_notMem

/-- The front of a frame whose header is as it was sent: a buffer is the whole frame. -/
theorem window_whole (hv : ValidPacket info x) {c₁ c₂ : Byte} {d : List Byte}
    (hd : d.length = info.data.length) {reads : List (List Byte)}
    (hreads : reads.flatten = PRO_PKT_START_CHAR :: idCmdNum info ::
      UInt8.ofNat info.data.length :: c₁ :: c₂ :: d) {p : ProPacketInfo}
    (hp : p ∈ acceptedPackets RxLoop.init reads) :
    ∃ rest, acceptPacket ((PRO_PKT_START_CHAR :: idCmdNum info ::
      UInt8.ofNat info.data.length :: c₁ :: c₂ :: d) ++ rest) = some p := by
  obtain ⟨k, buf, hk, ⟨m, h, rest, rfl, hget, hh, hlen⟩, hacc⟩ := accepted_front hv hreads hp
  generalize hf : PRO_PKT_START_CHAR :: idCmdNum info :: UInt8.ofNat info.data.length ::
    c₁ :: c₂ :: d = f' at *
  have hflen : f'.length = info.data.length + 5 := by
    rw [← hf]
    simp only [List.length_cons, hd]
  rw [hv.length_toNat, PRO_IDX_PKT_HEADER_LEN] at hk
  rcases hk with rfl | hk
  · refine ⟨rest, ?_⟩
    have hlength := getDataHead_length hh
    rw [List.drop_zero, PRO_IDX_PKT_HEADER_LEN, List.length_take] at hlen
    have hbyte : ((f'.take m).drop 0).getD 2 0 = UInt8.ofNat info.data.length := by
      rw [List.drop_zero, List.getD_eq_getElem?_getD, List.getElem?_take_of_lt (by omega), ← hf]
      rfl
    rw [hbyte, hv.length_toNat] at hlength
    rw [List.drop_zero, List.take_of_length_le (by omega)] at hacc
    exact hacc
  · rw [List.getElem?_eq_none (by omega)] at hget
    cases hget

/-- The payload is unpacked from a frame that has it, whatever its header is. -/
theorem unpackLoop_payload (hv : ValidPacket info x) (head rest : List Byte)
    (hhead : head.length = PRO_IDX_PKT_HEADER_LEN) :
    unpackLoop (fun i => ((head ++ info.data) ++ rest).getD (PRO_IDX_PKT_HEADER_LEN + i) 0)
      info.data.length 256 0 [] = some x := by
  have hlen := hv.short
  rw [PRO_MAX_DATADOMAIN_SIZE] at hlen
  have hx := length_le_stuff x
  rw [← hv.data] at hx
  refine unpackLoop_stuff _ info.data.length (by omega) x 256 0 [] ?_ (by omega) ?_
  · rw [← hv.data, Nat.zero_add]
  · intro i hi
    rw [← hv.data] at hi ⊢
    rw [Nat.zero_add, List.append_assoc, List.getD_append_right _ _ _ _ (by omega), hhead,
      Nat.add_sub_cancel_left, List.getD_append _ _ _ _ hi]

/-- A flip in the two bytes of the CRC. -/
theorem accepted_flip_crc (hv : ValidPacket info x) {c₁ c₂ : Byte} {reads : List (List Byte)}
    (hreads : reads.flatten = PRO_PKT_START_CHAR :: idCmdNum info ::
      UInt8.ofNat info.data.length :: c₁ :: c₂ :: info.data) {p : ProPacketInfo}
    (hp : p ∈ acceptedPackets RxLoop.init reads) : Carries info x p := by
  obtain ⟨rest, hacc⟩ := window_whole hv rfl hreads hp
  obtain ⟨-, hcmd, hnum, hdata⟩ := acceptPacket_some hacc
  obtain ⟨-, hcmd', hnum'⟩ := idCmdNum_decode info.devId info.cmd info.num info.data
  have hloop := unpackLoop_payload hv [PRO_PKT_START_CHAR, idCmdNum info,
    UInt8.ofNat info.data.length, c₁, c₂] rest rfl
  have hbyte : (((PRO_PKT_START_CHAR :: idCmdNum info :: UInt8.ofNat info.data.length ::
      c₁ :: c₂ :: info.data) ++ rest).getD 2 0).toNat = info.data.length := hv.length_toNat
  rw [hbyte] at hdata
  exact ⟨hcmd.trans hcmd', hnum.trans hnum', (Option.some.inj (hloop.symm.trans hdata)).symm⟩

/-- A flip in the payload is never accepted. -/
theorem accepted_flip_payload (hv : ValidPacket info x) {i j : Nat} (hi : i < info.data.length)
    (hj : j < 8) {reads : List (List Byte)}
    (hreads : reads.flatten = flipBit (proPackData info) (i + 5) j) :
    acceptedPackets RxLoop.init reads = [] := by
  refine List.eq_nil_iff_forall_not_mem.mpr fun p hp => ?_
  obtain ⟨d, hd⟩ : ∃ d, d = flipBit info.data i j := ⟨_, rfl⟩
  have hlen : d.length = info.data.length := by rw [hd, flipBit, List.length_modify]
  have hf : flipBit (proPackData info) (i + 5) j = PRO_PKT_START_CHAR :: idCmdNum info ::
      UInt8.ofNat info.data.length :: (crcField (proGenCrc8 info.data)).1 ::
      (crcField (proGenCrc8 info.data)).2 :: d := by
    rw [hv.frame_eq, hd]
    rfl
  rw [hf] at hreads
  obtain ⟨rest, hacc⟩ := window_whole hv hlen hreads hp
  obtain ⟨hcrc, -⟩ := acceptPacket_some hacc
  -- The CRC is taken over the flipped payload, and the frame carries the other one.
  have hbyte : (((PRO_PKT_START_CHAR :: idCmdNum info :: UInt8.ofNat info.data.length ::
      (crcField (proGenCrc8 info.data)).1 :: (crcField (proGenCrc8 info.data)).2 :: d)
      ++ rest).getD 2 0).toNat = info.data.length := hv.length_toNat
  have hpayload : (((PRO_PKT_START_CHAR :: idCmdNum info :: UInt8.ofNat info.data.length ::
      (crcField (proGenCrc8 info.data)).1 :: (crcField (proGenCrc8 info.data)).2 :: d)
      ++ rest).drop PRO_IDX_PKT_HEADER_LEN).take info.data.length = d := by
    rw [← hlen]
    exact List.take_left
  rw [hbyte, hpayload] at hcrc
  have hsame : proGenCrc8 d = proGenCrc8 info.data :=
    hcrc.trans (crcField_decode (proGenCrc8 info.data))
  rw [hd, flipBit, List.modify_eq_take_cons_drop hi] at hsame
  have hsplit : info.data = info.data.take i ++ info.data[i] :: info.data.drop (i + 1) := by
    rw [List.getElem_cons_drop, List.take_append_drop]
  have hbytes : proGenCrc8 (info.data.take i ++ (info.data[i] ^^^ (1 <<< UInt8.ofNat j)) ::
      info.data.drop (i + 1))
      = proGenCrc8 (info.data.take i ++ info.data[i] :: info.data.drop (i + 1)) := by
    rw [← hsplit]
    exact hsame
  exact flip_ne hj _ (proGenCrc8_injective hbytes)

/-- A command has three bits. -/
theorem toByte_ofByte : ∀ b : Byte, (ProtocolCmd.ofByte b).toByte = b &&& 0x07 :=
  byte_forall (by decide +kernel)

/-- A flip of a bit of the command or the number is seen in one of them. -/
theorem flip_cmdNum_ne (b : Byte) (j : Fin 8) (hj : j.val ≤ 4) :
    ProtocolCmd.ofByte ((b ^^^ (1 <<< UInt8.ofNat j.val)) >>> 2) ≠ ProtocolCmd.ofByte (b >>> 2) ∨
      Fin.ofNat 4 ((b ^^^ (1 <<< UInt8.ofNat j.val)) &&& 0x03).toNat
        ≠ Fin.ofNat 4 (b &&& 0x03).toNat := by
  have hseen : ∀ j : Fin 8, j.val ≤ 4 →
      ((1 <<< UInt8.ofNat j.val) >>> 2) &&& (0x07 : Byte) ≠ 0 ∨
        (1 <<< UInt8.ofNat j.val) &&& (0x03 : Byte) ≠ 0 := by
    decide
  rcases hseen j hj with hcmd | hnum
  · left
    intro hsame
    have hbyte := congrArg ProtocolCmd.toByte hsame
    rw [toByte_ofByte, toByte_ofByte, UInt8.shiftRight_xor] at hbyte
    exact hcmd (and_eq_zero_of_xor hbyte)
  · right
    intro hsame
    exact hnum (and_eq_zero_of_xor (and_eq_of_ofNat_eq (by decide) hsame))

/-- A frame with a good header that is read at once is accepted with its payload. -/
theorem accepted_whole (hv : ValidPacket info x) {id : Byte} {f' : List Byte}
    (hf : f' = PRO_PKT_START_CHAR :: id :: UInt8.ofNat info.data.length ::
      (crcField (proGenCrc8 info.data)).1 :: (crcField (proGenCrc8 info.data)).2 :: info.data)
    (hhead : getDataHead f' ≠ none) :
    ∃ p ∈ acceptedPackets RxLoop.init [f'], p.cmd = ProtocolCmd.ofByte (id >>> 2) ∧
      p.num = Fin.ofNat 4 (id &&& 0x03).toNat := by
  obtain ⟨h, hh⟩ := Option.ne_none_iff_exists'.mp hhead
  have hlength : h.length = info.data.length := by
    rw [getDataHead_length hh, hf]
    exact hv.length_toNat
  have hflen : f'.length = info.data.length + 5 := by
    rw [hf]
    simp only [List.length_cons]
  obtain ⟨rest, hrest⟩ : ∃ rest, rest = RxLoop.init.rest.drop f'.length := ⟨_, rfl⟩
  -- The buffer is given to `deal_with_indata` in the first iteration.
  have hbuf : indataBuffer ⟨f', rest, []⟩ = some (f' ++ rest) := by
    have hstart : f'.head? = some PRO_PKT_START_CHAR := by
      rw [hf]
      rfl
    have hcheck := checkBuffer_of_start (s := ⟨f', rest, []⟩) hstart
    rw [indataBuffer, hcheck, Option.bind_eq_bind, Option.bind_some]
    dsimp only
    rw [if_neg (by rw [hflen, PRO_IDX_PKT_HEADER_LEN]; omega), hh, Option.bind_eq_bind,
      Option.bind_some, if_neg (by rw [hflen, hlength, PRO_IDX_PKT_HEADER_LEN]; omega)]
  have hbyte : ((f' ++ rest).getD 2 0).toNat = info.data.length := by
    rw [hf]
    exact hv.length_toNat
  have hloop := unpackLoop_payload hv [PRO_PKT_START_CHAR, id, UInt8.ofNat info.data.length,
    (crcField (proGenCrc8 info.data)).1, (crcField (proGenCrc8 info.data)).2] rest rfl
  obtain ⟨p, hacc⟩ : ∃ p, acceptPacket (f' ++ rest) = some p := by
    refine acceptPacket_of_crc (x := x) ?_ ?_
    · rw [hbyte, hf]
      exact hloop
    · have hpayload : ((f' ++ rest).drop PRO_IDX_PKT_HEADER_LEN).take info.data.length
          = info.data := by
        rw [hf]
        exact List.take_left
      rw [hbyte, hpayload, hf]
      exact (crcField_decode (proGenCrc8 info.data)).symm
  have hrun : acceptedPackets RxLoop.init [f']
      = ((indataBuffer ⟨f', rest, []⟩).bind acceptPacket).toList := by
    rw [hrest, hf]
    exact List.append_nil _
  obtain ⟨-, hcmd, hnum, -⟩ := acceptPacket_some hacc
  refine ⟨p, ?_, ?_, ?_⟩
  · rw [hrun, hbuf, Option.bind_some, hacc]
    exact List.mem_singleton_self p
  · rw [hcmd, hf]
    rfl
  · rw [hnum, hf]
    rfl

/-- What a flipped bit can do, in whatever pieces the frame is read. -/
theorem flipped_bit_accepted (info : ProPacketInfo) (x : List Byte) (hv : ValidPacket info x)
    (i j : Nat) (hi : i < (proPackData info).length) (hj : j < 8) :
    (∀ reads : List (List Byte), reads.flatten = flipBit (proPackData info) i j →
      ∀ p ∈ acceptedPackets RxLoop.init reads,
        Carries info x p ∨ Unprotected info (flipBit (proPackData info) i j) i j) ∧
    (i = 1 → j ≤ 4 → getDataHead (flipBit (proPackData info) i j) ≠ none →
      ∃ p ∈ acceptedPackets RxLoop.init [flipBit (proPackData info) i j], ¬Carries info x p) := by
  constructor
  · intro reads hreads p hp
    match i with
    | 0 => exact Or.inr (accepted_flip_start hv hj hreads hp)
    | 1 => exact Or.inr (accepted_flip_id hv hj hreads hp)
    | 2 => exact Or.inr (accepted_flip_length hv hj hreads hp)
    | 3 =>
      rw [hv.frame_eq] at hreads
      exact Or.inl (accepted_flip_crc hv hreads hp)
    | 4 =>
      rw [hv.frame_eq] at hreads
      exact Or.inl (accepted_flip_crc hv hreads hp)
    | i + 5 =>
      have hlt : i < info.data.length := by
        rw [hv.frame_eq] at hi
        simp only [List.length_cons] at hi
        omega
      rw [accepted_flip_payload hv hlt hj hreads] at hp
      exact nomatch hp
  · rintro rfl hle hhead
    have hf : flipBit (proPackData info) 1 j = PRO_PKT_START_CHAR ::
        (idCmdNum info ^^^ (1 <<< UInt8.ofNat j)) :: UInt8.ofNat info.data.length ::
        (crcField (proGenCrc8 info.data)).1 :: (crcField (proGenCrc8 info.data)).2 ::
        info.data := by
      rw [hv.frame_eq]
      rfl
    obtain ⟨p, hp, hcmd, hnum⟩ := accepted_whole hv hf hhead
    refine ⟨p, hp, ?_⟩
    rintro ⟨hcmd', hnum', -⟩
    obtain ⟨-, hc, hn⟩ := idCmdNum_decode info.devId info.cmd info.num info.data
    rcases flip_cmdNum_ne (idCmdNum info) ⟨j, hj⟩ hle with hne | hne
    · exact hne (hcmd.symm.trans (hcmd'.trans hc.symm))
    · exact hne (hnum.symm.trans (hnum'.trans hn.symm))

end Flips

/-- The acknowledgement of packet 1, with one byte of payload. -/
def ackPacket : ProPacketInfo := ⟨1, .ack, 1, 0, [0xEE]⟩

/-- The acknowledgement is a valid packet. -/
theorem ackPacket_valid : ValidPacket ackPacket [0xEE] :=
  ⟨by decide, rfl, by decide, by decide, by decide⟩

/-- A flip in the number of an acknowledgement is accepted as another packet. -/
theorem flipped_bit_accepted_ack :
    ∃ p ∈ acceptedPackets RxLoop.init [flipBit (proPackData ackPacket) 1 0],
      ¬Carries ackPacket [0xEE] p :=
  (flipped_bit_accepted ackPacket [0xEE] ackPacket_valid 1 0 (by decide)
    (by decide)).2 rfl (by decide) (by decide)

/-- The acknowledgement of packet 1 with a flipped bit is accepted as that of packet 0. -/
theorem flipped_number_accepted :
    ¬ ∀ (info : ProPacketInfo) (x : List Byte) (i j : Nat), ValidPacket info x →
      i < (proPackData info).length → j < 8 →
        ∀ reads : List (List Byte), reads.flatten = flipBit (proPackData info) i j →
          ∀ p ∈ acceptedPackets RxLoop.init reads, Carries info x p := by
  intro hall
  have haccept : (acceptedPackets RxLoop.init [flipBit (proPackData ackPacket) 1 0]).map
      (fun p => p.num) = [0] := by
    decide
  cases hrun : acceptedPackets RxLoop.init [flipBit (proPackData ackPacket) 1 0] with
  | nil =>
    rw [hrun] at haccept
    exact nomatch haccept
  | cons p ps =>
    obtain ⟨-, hnum, -⟩ := hall ackPacket [0xEE] 1 0 ackPacket_valid (by decide)
      (by decide) [flipBit (proPackData ackPacket) 1 0] (List.append_nil _) p
      (by rw [hrun]; exact List.mem_cons_self)
    rw [hrun, List.map_cons, hnum] at haccept
    exact absurd (List.cons.inj haccept).1 (by decide)

end LearnGit.Proofs.Uart
