import LearnGit.Proofs.Uart.Codec
import LearnGit.Uart.Link.ThreadRx

/-!
# `LearnGit.Proofs.Uart.ThreadRx`: which frames the receive loop hands on

The loop clears the whole buffer after it hands a frame on, also the bytes of the next frame
that came with the same read. So the frames that are handed on are all the frames that were
sent exactly when every frame ends where a read ends (`handed_eq_iff_boundaries`).
`two_frames_in_one_read` is the smallest case where one is lost.

`threadRxCheck_cases` says what an iteration can do. `handed_boundaries` counts bytes along a
run: the loop never holds more than was read, so once a byte is dropped the frames handed on
are too short. `execFrom_frames` is the other direction, one frame at a time.
-/

set_option autoImplicit false

namespace LearnGit.Proofs.Uart

open LearnGit.Lib
open LearnGit.Uart.Link

/-- A frame for device 1 that `pro_pack_data` builds: a data or an answer packet with at most
`PRO_MAX_DATADOMAIN_SIZE` payload bytes, so at most 245 bytes. -/
def ValidFrame (f : List Byte) : Prop :=
  ∃ info : ProPacketInfo, f = proPackData info ∧ info.devId = 1 ∧
    info.cmd ≠ .timeout ∧ info.cmd ≠ .invalid ∧ info.data.length ≤ PRO_MAX_DATADOMAIN_SIZE

/-! ### One iteration -/

/-- What the loop reads of a valid frame: the start byte, an accepted header, and the length. -/
structure FrameShape (f : List Byte) : Prop where
  start : f.head? = some PRO_PKT_START_CHAR
  long : PRO_IDX_PKT_HEADER_LEN ≤ f.length
  length : f.length = (f.getD 2 0).toNat + PRO_IDX_PKT_HEADER_LEN
  head : ∃ h, getDataHead f = some h ∧ h.length = (f.getD 2 0).toNat
  fits : f.length ≤ 245

/-- A valid frame has the shape of one. -/
theorem ValidFrame.shape {f : List Byte} (h : ValidFrame f) : FrameShape f := by
  obtain ⟨info, rfl, hdev, htime, hinv, hlen⟩ := h
  have h250 : info.data.length ≤ 250 := by
    simp only [PRO_MAX_DATADOMAIN_SIZE] at hlen
    omega
  have hbyte := proPackData_length_byte info h250
  have hlength : (proPackData info).length = info.data.length + 5 := by
    rw [proPackData_eq info h250]
    simp
  refine ⟨?_, ?_, ?_, ?_, ?_⟩
  · rw [proPackData_eq info h250]
    rfl
  · rw [hlength]
    simp only [PRO_IDX_PKT_HEADER_LEN]
    omega
  · rw [hlength, hbyte]
    rfl
  · obtain ⟨hd, hc, -⟩ := idCmdNum_decode info.devId info.cmd info.num info.data
    have hid : (proPackData info).getD 1 0 = idCmdNum info := by
      rw [proPackData_eq info h250]
      rfl
    unfold getDataHead
    simp only [hid]
    have hd' : Fin.ofNat 8 ((idCmdNum info >>> 5) &&& (0x07 : Byte)).toNat = info.devId := hd
    have hc' : ProtocolCmd.ofByte (idCmdNum info >>> 2) = info.cmd := hc
    rw [hd', hc', hdev]
    cases hcmd : info.cmd <;> first | exact absurd hcmd htime | exact absurd hcmd hinv | simp
  · rw [hlength]
    simp only [PRO_MAX_DATADOMAIN_SIZE] at hlen
    omega

/-- `get_data_head` reads only the id byte and the length byte. -/
theorem getDataHead_congr {a b : List Byte} (h1 : a.getD 1 0 = b.getD 1 0)
    (h2 : a.getD 2 0 = b.getD 2 0) : getDataHead a = getDataHead b := by
  unfold getDataHead
  rw [h1, h2]

/-- A buffer that begins with the start byte stays where it is. -/
theorem checkBuffer_of_start {s : RxLoop} (h : s.content.head? = some PRO_PKT_START_CHAR) :
    checkBuffer s = some s := by
  obtain ⟨content, rest, handed⟩ := s
  cases content with
  | nil => simp at h
  | cons b bs =>
    obtain rfl : b = PRO_PKT_START_CHAR := by simpa using h
    simp [checkBuffer]

/-- While a frame is incomplete, the loop keeps what it has. -/
theorem threadRxCheck_keeps {s : RxLoop} {f : List Byte} (hf : FrameShape f) {k : Nat}
    (hk : 0 < k) (hlt : k < f.length) (hc : s.content = f.take k) : threadRxCheck s = s := by
  have hstart : s.content.head? = some PRO_PKT_START_CHAR := by
    rw [hc, List.head?_take, if_neg (by omega), hf.start]
  have hlen : s.content.length = k := by
    rw [hc, List.length_take]
    omega
  unfold threadRxCheck
  rw [checkBuffer_of_start hstart]
  dsimp only
  split
  · rfl
  · rename_i hge
    obtain ⟨h, hh, hlenh⟩ := hf.head
    simp only [PRO_IDX_PKT_HEADER_LEN, hlen, Nat.not_lt] at hge
    -- The header is complete, so its two bytes are those of the frame.
    have hget : ∀ i, i < k → (f.take k).getD i 0 = f.getD i 0 := by
      intro i hi
      simp [List.getD_eq_getElem?_getD, hi]
    have hhead : getDataHead s.content = some h := by
      rw [hc, getDataHead_congr (hget 1 (by omega)) (hget 2 (by omega)), hh]
    rw [hhead]
    dsimp only
    rw [if_pos]
    have := hf.length
    rw [hlen, hlenh]
    omega

/-- A complete frame is handed on, and the buffer is cleared. -/
theorem threadRxCheck_complete {s : RxLoop} {f : List Byte} (hf : FrameShape f)
    (hc : s.content = f) :
    threadRxCheck s =
      { content := [], rest := List.replicate CMD_BUFFER_LEN 0, handed := s.handed ++ [f] } := by
  have hstart : s.content.head? = some PRO_PKT_START_CHAR := by rw [hc, hf.start]
  obtain ⟨h, hh, hlenh⟩ := hf.head
  have hlength := hf.length
  have hlong := hf.long
  unfold threadRxCheck
  rw [checkBuffer_of_start hstart]
  dsimp only
  rw [hc, if_neg (by omega), hh]
  dsimp only
  rw [if_neg (by omega)]
  have hget : (f ++ s.rest).getD 2 0 = f.getD 2 0 := by
    simp only [PRO_IDX_PKT_HEADER_LEN] at hlong
    rw [List.getD_eq_getElem?_getD, List.getD_eq_getElem?_getD,
      List.getElem?_append_left (by omega)]
  have hframe : frameOf (f ++ s.rest) = f := by
    unfold frameOf
    rw [hget, List.take_append_of_le_length (by omega), List.take_of_length_le (by omega)]
  rw [hframe]

/-- What `get_data_head` returns as the length is the length byte. -/
theorem getDataHead_length {c : List Byte} {h : DataInfoHeader} (hh : getDataHead c = some h) :
    h.length = (c.getD 2 0).toNat := by
  unfold getDataHead at hh
  dsimp only at hh
  split at hh
  · exact nomatch hh
  · split at hh <;> first | rw [← Option.some.inj hh] | exact nomatch hh

/-- `check_buffer` drops the buffer, or cuts off what stands before its first start byte. -/
theorem checkBuffer_cases (s : RxLoop) :
    (PRO_PKT_START_CHAR ∉ s.content ∧ checkBuffer s = none) ∨
    ∃ skip d rest, s.content = skip ++ d ∧ PRO_PKT_START_CHAR ∉ skip ∧
      d.head? = some PRO_PKT_START_CHAR ∧
      checkBuffer s = some { s with content := d, rest := rest } := by
  by_cases hmem : PRO_PKT_START_CHAR ∈ s.content
  · right
    have hlt : s.content.idxOf PRO_PKT_START_CHAR < s.content.length :=
      List.idxOf_lt_length_of_mem hmem
    generalize hi : s.content.idxOf PRO_PKT_START_CHAR = i at hlt
    have hget : s.content[i] = PRO_PKT_START_CHAR := by
      subst hi
      exact List.getElem_idxOf hlt
    have hskip : PRO_PKT_START_CHAR ∉ s.content.take i := by
      intro hin
      have hlt' := List.idxOf_lt_length_of_mem hin
      -- The index would be the same one, which is past the end of the prefix.
      have heq : (s.content.take i).idxOf PRO_PKT_START_CHAR = i := by
        rw [← List.take_append_drop i s.content, List.idxOf_append, if_pos hin] at hi
        exact hi
      rw [List.length_take] at hlt'
      omega
    have hhead : (s.content.drop i).head? = some PRO_PKT_START_CHAR := by
      rw [List.head?_drop, List.getElem?_eq_getElem hlt, hget]
    refine ⟨s.content.take i, s.content.drop i, s.content.drop (s.content.length - i) ++ s.rest,
      (List.take_append_drop i _).symm, hskip, hhead, ?_⟩
    unfold checkBuffer
    rw [hi]
    dsimp only
    rw [if_neg (Nat.ne_of_lt hlt)]
  · left
    refine ⟨hmem, ?_⟩
    unfold checkBuffer
    rw [List.idxOf_eq_length hmem]
    simp

/-- The ways an iteration can end, on the buffer `d` from its first start byte on. -/
inductive RxOutcome (s : RxLoop) (d : List Byte) : RxLoop → Prop where
  | short (rest : List Byte) : d.length < PRO_IDX_PKT_HEADER_LEN →
      RxOutcome s d { content := d, rest := rest, handed := s.handed }
  | badHead (rest : List Byte) : PRO_IDX_PKT_HEADER_LEN ≤ d.length → getDataHead d = none →
      RxOutcome s d { content := d.set 0 0x00, rest := rest, handed := s.handed }
  | incomplete (rest : List Byte) (h : DataInfoHeader) : getDataHead d = some h →
      d.length < h.length + PRO_IDX_PKT_HEADER_LEN →
      RxOutcome s d { content := d, rest := rest, handed := s.handed }
  | complete (h : DataInfoHeader) : getDataHead d = some h →
      h.length + PRO_IDX_PKT_HEADER_LEN ≤ d.length →
      RxOutcome s d
        { content := []
          rest := List.replicate CMD_BUFFER_LEN 0
          handed := s.handed ++ [d.take (PRO_IDX_PKT_HEADER_LEN + h.length)] }

/-- Every iteration drops the buffer, or cuts off what stands before the first start byte and
ends in one of the ways above. -/
theorem threadRxCheck_cases (s : RxLoop) :
    (PRO_PKT_START_CHAR ∉ s.content ∧ (threadRxCheck s).content = [] ∧
      (threadRxCheck s).handed = s.handed) ∨
    ∃ skip d, s.content = skip ++ d ∧ PRO_PKT_START_CHAR ∉ skip ∧
      d.head? = some PRO_PKT_START_CHAR ∧ RxOutcome s d (threadRxCheck s) := by
  rcases checkBuffer_cases s with ⟨hmem, hcb⟩ | ⟨skip, d, rest, hsplit, hskip, hhead, hcb⟩
  · left
    refine ⟨hmem, ?_, ?_⟩ <;> simp [threadRxCheck, hcb]
  · right
    refine ⟨skip, d, hsplit, hskip, hhead, ?_⟩
    unfold threadRxCheck
    rw [hcb]
    dsimp only
    split
    · rename_i hshort
      exact .short _ hshort
    · rename_i hlong
      cases hh : getDataHead d with
      | none => exact .badHead _ (Nat.not_lt.mp hlong) hh
      | some h =>
        dsimp only
        split
        · rename_i hlt'
          exact .incomplete _ h hh hlt'
        · rename_i hge
          have hframe : frameOf (d ++ rest) = d.take (PRO_IDX_PKT_HEADER_LEN + h.length) := by
            simp only [PRO_IDX_PKT_HEADER_LEN] at hlong hge ⊢
            have hbyte : (d ++ rest).getD 2 0 = d.getD 2 0 := by
              rw [List.getD_eq_getElem?_getD, List.getD_eq_getElem?_getD,
                List.getElem?_append_left (by omega)]
            unfold frameOf
            rw [hbyte, ← getDataHead_length hh, PRO_IDX_PKT_HEADER_LEN,
              List.take_append_of_le_length (by omega)]
          rw [hframe]
          exact .complete h hh (Nat.not_lt.mp hge)

/-- How an iteration changes the number of bytes kept: what the buffer holds and what was
handed on grow together by at most what was read, and a frame that is handed on empties the
buffer. -/
theorem threadRxCheck_bytes (s : RxLoop) :
    ((threadRxCheck s).handed = s.handed ∧
      (threadRxCheck s).content.length ≤ s.content.length) ∨
    (∃ f, (threadRxCheck s).handed = s.handed ++ [f] ∧ (threadRxCheck s).content = [] ∧
      f.length ≤ s.content.length) := by
  rcases threadRxCheck_cases s with ⟨_, hc, hh⟩ | ⟨skip, d, hsplit, _, _, hout⟩
  · exact Or.inl ⟨hh, by simp [hc]⟩
  · have hlen : d.length ≤ s.content.length := by simp [hsplit]
    generalize threadRxCheck s = s' at hout
    cases hout with
    | short _ _ => exact Or.inl ⟨rfl, hlen⟩
    | badHead _ _ _ => exact Or.inl ⟨rfl, by simpa using hlen⟩
    | incomplete _ _ _ _ => exact Or.inl ⟨rfl, hlen⟩
    | complete h _ _ =>
      have htake := List.length_take_le' (PRO_IDX_PKT_HEADER_LEN + h.length) d
      exact Or.inr ⟨_, rfl, rfl, Nat.le_trans htake hlen⟩

/-! ### Whole runs -/

/-- A read of at least one byte, as a step of the machine. -/
theorem threadRx_step_bytes {s : RxLoop} {bs : List Byte} (hne : bs ≠ [])
    (hfit : s.content.length + bs.length ≤ PRO_MAX_BUFFER_SIZE) :
    threadRx.step (some s) (.bytes bs) = some (some (threadRxCheck
      { s with content := s.content ++ bs, rest := s.rest.drop bs.length })) := by
  cases bs with
  | nil => exact absurd rfl hne
  | cons b bs =>
    show (if _ then some (threadRxIter s (.bytes (b :: bs))) else none) = _
    rw [if_pos hfit]
    rfl

/-- A step on a read of at least one byte was possible and checked the longer buffer. -/
theorem of_threadRx_step_bytes {t : Option RxLoop} {bs : List Byte} {s' : RxLoop} (hne : bs ≠ [])
    (h : threadRx.step t (.bytes bs) = some (some s')) :
    ∃ s, t = some s ∧ s.content.length + bs.length ≤ PRO_MAX_BUFFER_SIZE ∧
      s' = threadRxCheck { s with content := s.content ++ bs, rest := s.rest.drop bs.length } := by
  cases t with
  | none => exact nomatch h
  | some s =>
    by_cases hfit : s.content.length + bs.length ≤ PRO_MAX_BUFFER_SIZE
    · rw [threadRx_step_bytes hne hfit] at h
      exact ⟨s, rfl, hfit, (Option.some.inj (Option.some.inj h)).symm⟩
    · have hnone : threadRx.step (some s) (.bytes bs) = none := if_neg hfit
      rw [hnone] at h
      exact nomatch h

/-- The bytes of the frames handed on and of the buffer are at most the bytes read. -/
theorem handed_le_read {reads : List (List Byte)} (hne : ∀ r ∈ reads, r ≠ []) {st : RxLoop}
    (hrun : threadRx.exec (reads.map .bytes) = some (some st)) :
    st.handed.flatten.length + st.content.length ≤ reads.flatten.length := by
  induction reads using List.reverseRecOn generalizing st with
  | nil =>
    have hst : RxLoop.init = st := by simpa [Machine.exec, threadRx] using hrun
    simp [← hst, RxLoop.init]
  | append_singleton reads bs ih =>
    rw [List.map_append, List.map_singleton, Machine.exec_snoc] at hrun
    obtain ⟨t, hpre, hlast⟩ := hrun
    obtain ⟨s, rfl, -, rfl⟩ := of_threadRx_step_bytes (hne bs (by simp)) hlast
    have hprev := ih (fun r hr => hne r (by simp [hr])) hpre
    rcases threadRxCheck_bytes
      { s with content := s.content ++ bs, rest := s.rest.drop bs.length } with
      ⟨hh, hc⟩ | ⟨f, hh, hc, hf⟩
    · simp only [hh, List.flatten_append, List.length_append, List.flatten_singleton] at hc ⊢
      omega
    · simp only [hh, hc, List.flatten_append, List.length_append, List.flatten_singleton,
        List.length_nil] at hf ⊢
      omega

/-- When no byte was dropped, every frame handed on ended where a read ended. -/
theorem handed_boundaries {reads : List (List Byte)} (hne : ∀ r ∈ reads, r ≠ []) {st : RxLoop}
    (hrun : threadRx.exec (reads.map .bytes) = some (some st))
    (hall : reads.flatten.length ≤ st.handed.flatten.length + st.content.length) :
    ∀ j ≤ st.handed.length, ∃ i ≤ reads.length,
      (reads.take i).flatten.length = (st.handed.take j).flatten.length := by
  induction reads using List.reverseRecOn generalizing st with
  | nil =>
    have hst : RxLoop.init = st := by simpa [Machine.exec, threadRx] using hrun
    intro j _
    exact ⟨0, by simp, by simp [← hst, RxLoop.init]⟩
  | append_singleton reads bs ih =>
    rw [List.map_append, List.map_singleton, Machine.exec_snoc] at hrun
    obtain ⟨t, hpre, hlast⟩ := hrun
    obtain ⟨s, rfl, -, rfl⟩ := of_threadRx_step_bytes (hne bs (by simp)) hlast
    have hne' : ∀ r ∈ reads, r ≠ [] := fun r hr => hne r (by simp [hr])
    have hle := handed_le_read hne' hpre
    -- The boundaries of the shorter run stay boundaries.
    have hold : ∀ j ≤ s.handed.length,
        reads.flatten.length ≤ s.handed.flatten.length + s.content.length →
        ∃ i ≤ (reads ++ [bs]).length,
          ((reads ++ [bs]).take i).flatten.length = (s.handed.take j).flatten.length := by
      intro j hj hs
      obtain ⟨i, hi, heq⟩ := ih hne' hpre hs j hj
      refine ⟨i, by simp only [List.length_append, List.length_singleton]; omega, ?_⟩
      rw [List.take_append_of_le_length hi, heq]
    rcases threadRxCheck_bytes
      { s with content := s.content ++ bs, rest := s.rest.drop bs.length } with
      ⟨hh, hc⟩ | ⟨f, hh, hc, hf⟩
    · rw [hh] at hall ⊢
      simp only [List.flatten_append, List.length_append, List.flatten_singleton] at hc hall
      exact fun j hj => hold j hj (by omega)
    · rw [hh] at hall ⊢
      simp only [hc, List.flatten_append, List.length_append, List.flatten_singleton,
        List.length_nil] at hf hall
      intro j hj
      rcases Nat.lt_or_eq_of_le hj with hlt | rfl
      · have hj' : j ≤ s.handed.length := by
          simp only [List.length_append, List.length_singleton] at hlt
          omega
        rw [List.take_append_of_le_length hj']
        exact hold j hj' (by omega)
      · -- The frame handed on now ends with the last read.
        refine ⟨(reads ++ [bs]).length, Nat.le_refl _, ?_⟩
        rw [List.take_length, List.take_length]
        simp only [List.flatten_append, List.length_append, List.flatten_singleton]
        omega

/-- Reads that make up the rest of a frame hand it on. -/
theorem execFrom_frame {f : List Byte} (hf : FrameShape f) {reads : List (List Byte)}
    (hne : ∀ r ∈ reads, r ≠ []) {s : RxLoop} {k : Nat} (hk : k < f.length)
    (hc : s.content = f.take k) (hcat : reads.flatten = f.drop k) :
    threadRx.execFrom (some s) (reads.map .bytes) = some (some
      { content := [], rest := List.replicate CMD_BUFFER_LEN 0, handed := s.handed ++ [f] }) := by
  induction reads generalizing s k with
  | nil =>
    have hdrop : (f.drop k).length = 0 := by rw [← hcat]; rfl
    rw [List.length_drop] at hdrop
    omega
  | cons bs reads ih =>
    have hbs : bs ≠ [] := hne bs (by simp)
    have hpos : 0 < bs.length := List.length_pos_iff.mpr hbs
    have hfits := hf.fits
    have hlen : s.content.length = k := by
      rw [hc, List.length_take]
      omega
    have hsum : bs.length + reads.flatten.length = f.length - k := by
      rw [← List.length_drop, ← hcat, List.flatten_cons, List.length_append]
    have hbytes : bs = (f.drop k).take bs.length := by
      rw [← hcat, List.flatten_cons, List.take_left]
    have hcont : s.content ++ bs = f.take (k + bs.length) := by
      rw [hc, List.take_add, ← hbytes]
    have hrest : reads.flatten = f.drop (k + bs.length) := by
      rw [← List.drop_drop, ← hcat, List.flatten_cons, List.drop_left]
    rw [List.map_cons, Machine.execFrom_cons, threadRx_step_bytes hbs (by
      simp only [PRO_MAX_BUFFER_SIZE]
      omega)]
    show threadRx.execFrom (some (threadRxCheck _)) _ = _
    -- The read ends inside the frame, or it completes it.
    rcases Nat.lt_or_ge (k + bs.length) f.length with hlt | hge
    · rw [threadRxCheck_keeps hf (Nat.lt_of_lt_of_le hpos (Nat.le_add_left _ _)) hlt hcont]
      exact ih (fun r hr => hne r (by simp [hr])) hlt hcont hrest
    · have hwhole : s.content ++ bs = f := by
        rw [hcont, List.take_of_length_le hge]
      rw [threadRxCheck_complete hf hwhole]
      -- No read is left: it would be a non-empty part of nothing.
      have hnil : reads = [] := by
        cases reads with
        | nil => rfl
        | cons r reads =>
          have hr := List.length_pos_iff.mpr (hne r (by simp))
          rw [List.flatten_cons, List.length_append] at hsum
          omega
      rw [hnil]
      rfl

/-- Every frame boundary is a read boundary. -/
def FramesEndReads (frames reads : List (List Byte)) : Prop :=
  ∀ j ≤ frames.length, ∃ i, (reads.take i).flatten.length = (frames.take j).flatten.length

/-- Reads that end where each frame ends hand on all the frames. The induction is on the
frames: the reads up to the first boundary make up the first frame. -/
theorem execFrom_frames {frames : List (List Byte)} (hvalid : ∀ f ∈ frames, ValidFrame f)
    {reads : List (List Byte)} (hne : ∀ r ∈ reads, r ≠ []) (hcat : reads.flatten = frames.flatten)
    (hends : FramesEndReads frames reads) {s : RxLoop} (hc : s.content = []) :
    ∃ rest, threadRx.execFrom (some s) (reads.map .bytes) = some (some
      { content := [], rest := rest, handed := s.handed ++ frames }) := by
  induction frames generalizing reads s with
  | nil =>
    have hnil : reads = [] := by
      cases reads with
      | nil => rfl
      | cons r reads =>
        have hr := hne r (by simp)
        rw [List.flatten_cons, List.flatten_nil, List.append_eq_nil_iff] at hcat
        exact absurd hcat.1 hr
    subst hnil
    obtain ⟨content, rest, handed⟩ := s
    obtain rfl : content = [] := hc
    exact ⟨rest, by simp⟩
  | cons f frames ih =>
    have hf := (hvalid f (by simp)).shape
    obtain ⟨i, hi⟩ := hends 1 (by simp)
    rw [List.take_succ_cons, List.take_zero, List.flatten_singleton] at hi
    -- Two prefixes of the same bytes with the same length.
    have hfirst : (reads.take i).flatten = f := by
      have hpre : (reads.take i).flatten <+: f ++ frames.flatten := by
        rw [← List.flatten_cons, ← hcat]
        conv_rhs => rw [← List.take_append_drop i reads, List.flatten_append]
        exact List.prefix_append _ _
      exact List.IsPrefix.eq_of_length
        (List.prefix_of_prefix_length_le hpre (List.prefix_append _ _) (Nat.le_of_eq hi)) hi
    have hlast : (reads.drop i).flatten = frames.flatten := by
      have hsplit : (reads.take i).flatten ++ (reads.drop i).flatten = f ++ frames.flatten := by
        rw [← List.flatten_append, List.take_append_drop, hcat, List.flatten_cons]
      rw [hfirst] at hsplit
      exact List.append_cancel_left hsplit
    have hends' : FramesEndReads frames (reads.drop i) := by
      intro j hj
      obtain ⟨i', hi'⟩ := hends (j + 1) (by simpa using hj)
      rw [List.take_succ_cons, List.flatten_cons, List.length_append] at hi'
      rcases Nat.le_total i i' with hle | hle
      · refine ⟨i' - i, ?_⟩
        have htake : reads.take i' = reads.take i ++ (reads.drop i).take (i' - i) := by
          rw [← List.take_add, Nat.add_sub_cancel' hle]
        rw [htake, List.flatten_append, List.length_append, hfirst] at hi'
        omega
      · -- An earlier read cannot end a later frame, unless nothing lies between.
        have htake : reads.take i = reads.take i' ++ (reads.drop i').take (i - i') := by
          rw [← List.take_add, Nat.add_sub_cancel' hle]
        rw [htake, List.flatten_append, List.length_append] at hi
        exact ⟨0, by simp only [List.take_zero, List.flatten_nil, List.length_nil]; omega⟩
    have hlong := hf.long
    simp only [PRO_IDX_PKT_HEADER_LEN] at hlong
    have hrun := execFrom_frame hf (fun r hr => hne r (List.mem_of_mem_take hr)) (k := 0)
      (by omega) (by rw [hc, List.take_zero]) (s := s) (by rw [hfirst, List.drop_zero])
    obtain ⟨rest, hrun'⟩ := ih (fun g hg => hvalid g (by simp [hg]))
      (fun r hr => hne r (List.mem_of_mem_drop hr)) hlast hends'
      (s := ⟨[], List.replicate CMD_BUFFER_LEN 0, s.handed ++ [f]⟩) rfl
    refine ⟨rest, ?_⟩
    rw [← List.take_append_drop i reads, List.map_append, Machine.execFrom_append, hrun]
    show threadRx.execFrom _ _ = _
    rw [hrun', List.append_assoc, List.singleton_append]

/-- Framing. Valid frames are sent one after another, and the tty delivers them in any
non-empty reads of at most the size requested. The loop hands on exactly these frames, in
order, if and only if every frame ends where a read ends. -/
theorem handed_eq_iff_boundaries (frames reads : List (List Byte))
    (hvalid : ∀ f ∈ frames, ValidFrame f) (hne : ∀ r ∈ reads, r ≠ [])
    (hcat : reads.flatten = frames.flatten) (st : RxLoop)
    (hrun : threadRx.exec (reads.map .bytes) = some (some st)) :
    st.handed = frames ↔ FramesEndReads frames reads := by
  constructor
  · intro hst j hj
    have hall : reads.flatten.length ≤ st.handed.flatten.length + st.content.length := by
      rw [hst, hcat]
      exact Nat.le_add_right _ _
    obtain ⟨i, _, hi⟩ := handed_boundaries hne hrun hall j (by rw [hst]; exact hj)
    exact ⟨i, by rw [hi, hst]⟩
  · intro hends
    obtain ⟨rest, hrun'⟩ := execFrom_frames hvalid hne hcat hends (s := RxLoop.init) rfl
    have heq := Option.some.inj (Option.some.inj (hrun.symm.trans hrun'))
    rw [heq]
    rfl

/-- An acknowledgement with the number `num`, as it stands on the line. -/
def ackBytes (num : Fin 4) : List Byte :=
  proPackData { devId := 1, cmd := .ack, num := num, data := [TTY_ANSWER_DATA] }

/-- An acknowledgement is a valid frame. -/
theorem validFrame_ackBytes (num : Fin 4) : ValidFrame (ackBytes num) :=
  ⟨_, rfl, rfl, by simp, by simp, by simp [PRO_MAX_DATADOMAIN_SIZE]⟩

/-- Two acknowledgements are valid frames. -/
theorem validFrame_twoAcks : ∀ f ∈ [ackBytes 1, ackBytes 2], ValidFrame f := by
  intro f hf
  simp only [List.mem_cons, List.not_mem_nil, or_false] at hf
  rcases hf with rfl | rfl <;> exact validFrame_ackBytes _

/-- The theorem applied to two acknowledgements, the first of them in two reads. -/
theorem three_reads_two_frames :
    ∃ st, threadRx.exec ([(ackBytes 1).take 2, (ackBytes 1).drop 2, ackBytes 2].map .bytes)
        = some (some st) ∧
      (st.handed = [ackBytes 1, ackBytes 2] ↔
        FramesEndReads [ackBytes 1, ackBytes 2]
          [(ackBytes 1).take 2, (ackBytes 1).drop 2, ackBytes 2]) := by
  exact ⟨_, rfl, handed_eq_iff_boundaries _ _ validFrame_twoAcks (by decide) (by decide) _ rfl⟩

/-- Two acknowledgements that come in one read: the second is not handed on. -/
theorem two_frames_in_one_read :
    ¬ ∀ frames reads : List (List Byte), (∀ f ∈ frames, ValidFrame f) → (∀ r ∈ reads, r ≠ []) →
      reads.flatten = frames.flatten → ∀ st,
      threadRx.exec (reads.map .bytes) = some (some st) → st.handed = frames := by
  intro hclaim
  have hone := hclaim [ackBytes 1, ackBytes 2] [ackBytes 1 ++ ackBytes 2] validFrame_twoAcks
    (by decide) (by decide) _ rfl
  exact absurd hone (by decide)

end LearnGit.Proofs.Uart
