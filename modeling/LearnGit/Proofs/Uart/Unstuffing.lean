import LearnGit.Proofs.Uart.BitFlip

/-!
# `LearnGit.Proofs.Uart.Unstuffing`: what `pro_unpack_pkg` reads and stores

`unpack_bounded_iff`: on a buffer that `thread_rx` passes on, `pro_unpack_pkg` reads the payload
only and stores at most `PRO_MAX_DATADOMAIN_SIZE` bytes if and only if the payload is a sequence of
at most that many units (`Units`). A unit is a byte other than `0xFF`, or `0xFF` and the byte behind
it. It always ends, since the buffer has at most 255 bytes and the index does not wrap.

A payload that is no sequence of units ends in a `0xFF` that escapes nothing (`units_or_dangling`),
and the loop reads the byte behind the payload then (`escape_reads_behind`).
-/

set_option autoImplicit false

namespace LearnGit.Proofs.Uart

open LearnGit.Lib
open LearnGit.Uart.Link

/-! ### Statement -/

/-- The bytes are `n` units. -/
inductive Units : List Byte → Nat → Prop where
  | nil : Units [] 0
  | plain {b : Byte} {p : List Byte} {n : Nat} : b ≠ 0xFF → Units p n → Units (b :: p) (n + 1)
  | escape {e : Byte} {p : List Byte} {n : Nat} : Units p n → Units (0xFF :: e :: p) (n + 1)

/-- The length byte `L` of a buffer. -/
def lengthByte (pbuffer : List Byte) : Nat := (pbuffer.getD 2 0).toNat

/-- The `L` payload bytes of a buffer. -/
def payload (pbuffer : List Byte) : List Byte :=
  (pbuffer.drop PRO_IDX_PKT_HEADER_LEN).take (lengthByte pbuffer)

/-- `pro_unpack_pkg` ends, reads no payload byte at the offset `L` or behind it, and stores no
more bytes than `info->data` has. -/
def UnpackBounded (pbuffer : List Byte) : Prop :=
  (∃ info, proUnpackPkg pbuffer (lengthByte pbuffer) = some info ∧
    info.data.length ≤ PRO_MAX_DATADOMAIN_SIZE) ∧
  ∀ o ∈ unpackReads pbuffer (lengthByte pbuffer), o < lengthByte pbuffer

/-! ### Units -/

/-- There are no more units than bytes. -/
theorem Units.le_length {p : List Byte} {n : Nat} (h : Units p n) : n ≤ p.length := by
  induction h with
  | nil => exact Nat.le_refl 0
  | plain _ _ ih => exact Nat.succ_le_succ ih
  | escape _ ih => exact Nat.le_succ_of_le (Nat.succ_le_succ ih)

/-- Bytes are units, up to an escape at their end. -/
theorem units_or_dangling (p : List Byte) :
    (∃ n, Units p n) ∨ ∃ q n, p = q ++ [0xFF] ∧ Units q n := by
  match p with
  | [] => exact Or.inl ⟨0, Units.nil⟩
  | b :: p =>
    by_cases hb : b = 0xFF
    · -- An escape takes the byte behind it, whatever that is.
      match p with
      | [] => exact Or.inr ⟨[], 0, by rw [hb]; rfl, Units.nil⟩
      | e :: p =>
        rw [hb]
        rcases units_or_dangling p with ⟨n, hp⟩ | ⟨q, n, hq, hunits⟩
        · exact Or.inl ⟨n + 1, Units.escape hp⟩
        · exact Or.inr ⟨0xFF :: e :: q, n + 1, by rw [hq]; rfl, Units.escape hunits⟩
    · rcases units_or_dangling p with ⟨n, hp⟩ | ⟨q, n, hq, hunits⟩
      · exact Or.inl ⟨n + 1, Units.plain hb hp⟩
      · exact Or.inr ⟨b :: q, n + 1, by rw [hq]; rfl, Units.plain hb hunits⟩
termination_by p.length

/-! ### The loop -/

section Loop

variable {pdat : Nat → Byte} {dataLen : Nat}

/-- The bytes `p` stand at `pos`. -/
def StandsAt (pdat : Nat → Byte) (pos : Nat) (p : List Byte) : Prop :=
  ∀ i, i < p.length → pdat (pos + i) = p.getD i 0

/-- Behind its first byte the text stands one place further. -/
theorem StandsAt.tail {pos : Nat} {b : Byte} {p : List Byte} (h : StandsAt pdat pos (b :: p)) :
    StandsAt pdat (pos + 1) p := by
  intro i hi
  have hnext := h (i + 1) (by rw [List.length_cons]; omega)
  rw [show pos + 1 + i = pos + (i + 1) by omega, hnext]
  rfl

/-- The first byte of the text stands at its place. -/
theorem StandsAt.head {pos : Nat} {b : Byte} {p : List Byte} (h : StandsAt pdat pos (b :: p)) :
    pdat pos = b :=
  h 0 (Nat.succ_pos _)

/-- The round for a plain byte. -/
theorem unpack_plain {pos : Nat} (hlen : dataLen ≤ 250) (hpos : pos < dataLen)
    (hplain : pdat pos ≠ 0xFF) (rounds : Nat) (data : List Byte) :
    unpackLoop pdat dataLen (rounds + 1) pos data
        = unpackLoop pdat dataLen rounds (pos + 1) (data ++ [pdat pos]) ∧
      unpackOffsets pdat dataLen (rounds + 1) pos
        = pos :: unpackOffsets pdat dataLen rounds (pos + 1) := by
  have hnext : (pos + 1) % 256 = pos + 1 := Nat.mod_eq_of_lt (by omega)
  constructor
  · rw [unpackLoop, if_pos hpos, if_neg hplain, hnext]
  · rw [unpackOffsets, if_pos hpos, if_neg hplain, hnext]

/-- The round for an escape. -/
theorem unpack_escape {pos : Nat} (hlen : dataLen ≤ 250) (hpos : pos < dataLen)
    (hescape : pdat pos = 0xFF) (rounds : Nat) (data : List Byte) :
    unpackLoop pdat dataLen (rounds + 1) pos data
        = unpackLoop pdat dataLen rounds (pos + 2) (data ++ [unescape (pdat (pos + 1))]) ∧
      unpackOffsets pdat dataLen (rounds + 1) pos
        = pos :: (pos + 1) :: unpackOffsets pdat dataLen rounds (pos + 2) := by
  have hnext : (pos + 1) % 256 = pos + 1 := Nat.mod_eq_of_lt (by omega)
  have hnext' : (pos + 1 + 1) % 256 = pos + 2 := Nat.mod_eq_of_lt (by omega)
  constructor
  · rw [unpackLoop, if_pos hpos, if_pos hescape]
    dsimp only
    rw [hnext, hnext']
  · rw [unpackOffsets, if_pos hpos, if_pos hescape]
    dsimp only
    rw [hnext, hnext']

/-- A round for each unit stores a byte, and reads no byte behind the units. -/
theorem unpackLoop_units (hlen : dataLen ≤ 250) {p : List Byte} {n : Nat} (h : Units p n) :
    ∀ rounds pos data, pos + p.length ≤ dataLen → StandsAt pdat pos p →
      ∃ out offsets, out.length = n ∧ (∀ o ∈ offsets, o < pos + p.length) ∧
        unpackLoop pdat dataLen (rounds + n) pos data
          = unpackLoop pdat dataLen rounds (pos + p.length) (data ++ out) ∧
        unpackOffsets pdat dataLen (rounds + n) pos
          = offsets ++ unpackOffsets pdat dataLen rounds (pos + p.length) := by
  induction h with
  | nil =>
    intro rounds pos data _ _
    refine ⟨[], [], rfl, ?_, ?_, rfl⟩
    · intro o ho
      exact absurd ho List.not_mem_nil
    · rw [List.append_nil]
      rfl
  | @plain b p n hb _ ih =>
    intro rounds pos data hpos hstands
    have hend : pos + (b :: p).length = pos + 1 + p.length := by
      rw [List.length_cons]
      omega
    rw [hend] at hpos ⊢
    obtain ⟨out, offsets, hout, hoffsets, hloop, hreads⟩ :=
      ih rounds (pos + 1) (data ++ [b]) hpos hstands.tail
    obtain ⟨hround, hread⟩ := unpack_plain hlen (show pos < dataLen by omega)
      (show pdat pos ≠ 0xFF by rw [hstands.head]; exact hb) (rounds + n) data
    refine ⟨b :: out, pos :: offsets, by rw [List.length_cons, hout], ?_, ?_, ?_⟩
    · intro o ho
      rcases List.mem_cons.mp ho with rfl | ho
      · omega
      · exact hoffsets o ho
    · rw [← Nat.add_assoc, hround, hstands.head, hloop, List.append_assoc]
      rfl
    · rw [← Nat.add_assoc, hread, hreads]
      rfl
  | @escape e p n _ ih =>
    intro rounds pos data hpos hstands
    have hend : pos + (0xFF :: e :: p).length = pos + 2 + p.length := by
      rw [List.length_cons, List.length_cons]
      omega
    rw [hend] at hpos ⊢
    obtain ⟨out, offsets, hout, hoffsets, hloop, hreads⟩ :=
      ih rounds (pos + 2) (data ++ [unescape e]) hpos hstands.tail.tail
    obtain ⟨hround, hread⟩ := unpack_escape hlen (show pos < dataLen by omega) hstands.head
      (rounds + n) data
    refine ⟨unescape e :: out, pos :: (pos + 1) :: offsets, by rw [List.length_cons, hout], ?_, ?_,
      ?_⟩
    · intro o ho
      rcases List.mem_cons.mp ho with rfl | ho
      · omega
      · rcases List.mem_cons.mp ho with rfl | ho
        · omega
        · exact hoffsets o ho
    · rw [← Nat.add_assoc, hround, hstands.tail.head, hloop, List.append_assoc]
      rfl
    · rw [← Nat.add_assoc, hread, hreads]
      rfl

/-- Behind the payload the loop ends. -/
theorem unpackLoop_end (pdat : Nat → Byte) (dataLen rounds : Nat) (data : List Byte) :
    unpackLoop pdat dataLen (rounds + 1) dataLen data = some data ∧
      unpackOffsets pdat dataLen (rounds + 1) dataLen = [] :=
  ⟨if_neg (Nat.lt_irrefl dataLen), if_neg (Nat.lt_irrefl dataLen)⟩

/-- An escape at the end of the payload takes the byte behind it, and the loop ends then. -/
theorem escape_reads_behind (pdat : Nat → Byte) {pos : Nat} (hpos : pos + 1 = dataLen)
    (hlen : dataLen ≤ 250) (hescape : pdat pos = 0xFF) (rounds : Nat) (data : List Byte) :
    (∃ out, unpackLoop pdat dataLen (rounds + 2) pos data = some out) ∧
      dataLen ∈ unpackOffsets pdat dataLen (rounds + 2) pos := by
  obtain ⟨hround, hread⟩ := unpack_escape hlen (show pos < dataLen by omega) hescape (rounds + 1) data
  have hstop : ¬ pos + 2 < dataLen := by omega
  constructor
  · rw [hround, unpackLoop, if_neg hstop]
    exact ⟨_, rfl⟩
  · rw [hread, hpos]
    exact List.mem_cons_of_mem _ List.mem_cons_self

end Loop

/-! ### A buffer -/

section Buffer

variable {pbuffer : List Byte}

/-- The payload of a whole frame has the length that the frame says. -/
theorem payload_length (hwhole : lengthByte pbuffer + PRO_IDX_PKT_HEADER_LEN ≤ pbuffer.length) :
    (payload pbuffer).length = lengthByte pbuffer := by
  rw [payload, List.length_take, List.length_drop]
  omega

/-- The payload stands behind the header. -/
theorem standsAt_payload :
    StandsAt (fun i => pbuffer.getD (PRO_IDX_PKT_HEADER_LEN + i) 0) 0 (payload pbuffer) := by
  intro i hi
  have hlt : i < lengthByte pbuffer := by
    rw [payload, List.length_take] at hi
    omega
  show pbuffer.getD (PRO_IDX_PKT_HEADER_LEN + (0 + i)) 0 = _
  rw [payload, List.getD_eq_getElem?_getD, List.getD_eq_getElem?_getD, List.getElem?_take_of_lt hlt,
    List.getElem?_drop, Nat.zero_add]

/-- A payload of units: each of them is stored as a byte. -/
theorem unpack_of_units {n : Nat} (hfits : lengthByte pbuffer ≤ 250)
    (hwhole : lengthByte pbuffer + PRO_IDX_PKT_HEADER_LEN ≤ pbuffer.length)
    (h : Units (payload pbuffer) n) :
    (∃ info, proUnpackPkg pbuffer (lengthByte pbuffer) = some info ∧ info.data.length = n) ∧
      ∀ o ∈ unpackReads pbuffer (lengthByte pbuffer), o < lengthByte pbuffer := by
  have hlength := payload_length hwhole
  have hn := h.le_length
  -- 256 rounds are enough: one for each unit, and one that ends the loop.
  obtain ⟨out, offsets, hout, hoffsets, hloop, hreads⟩ := unpackLoop_units hfits h
    (255 - n + 1) 0 [] (by omega) standsAt_payload
  rw [hlength, Nat.zero_add] at hloop hreads hoffsets
  obtain ⟨hend, hnone⟩ := unpackLoop_end (fun i => pbuffer.getD (PRO_IDX_PKT_HEADER_LEN + i) 0)
    (lengthByte pbuffer) (255 - n) ([] ++ out)
  have hrounds : 255 - n + 1 + n = 256 := by omega
  rw [hrounds, hend] at hloop
  rw [hrounds, hnone, List.append_nil] at hreads
  constructor
  · rw [proUnpackPkg, hloop]
    exact ⟨_, rfl, hout⟩
  · rw [unpackReads, hreads]
    exact hoffsets

/-- A payload that ends in an escape: the byte behind it is read. -/
theorem unpack_of_dangling {q : List Byte} {n : Nat} (hfits : lengthByte pbuffer ≤ 250)
    (hwhole : lengthByte pbuffer + PRO_IDX_PKT_HEADER_LEN ≤ pbuffer.length)
    (hpayload : payload pbuffer = q ++ [0xFF]) (h : Units q n) :
    (∃ info, proUnpackPkg pbuffer (lengthByte pbuffer) = some info) ∧
      lengthByte pbuffer ∈ unpackReads pbuffer (lengthByte pbuffer) := by
  have hlength := payload_length hwhole
  have hn := h.le_length
  rw [hpayload, List.length_append, List.length_singleton] at hlength
  have hstands : StandsAt (fun i => pbuffer.getD (PRO_IDX_PKT_HEADER_LEN + i) 0) 0
      (q ++ [0xFF]) := by
    rw [← hpayload]
    exact standsAt_payload
  have hstandsFront : StandsAt (fun i => pbuffer.getD (PRO_IDX_PKT_HEADER_LEN + i) 0) 0 q := by
    intro i hi
    rw [hstands i (by rw [List.length_append]; omega), List.getD_eq_getElem?_getD,
      List.getElem?_append_left hi, List.getD_eq_getElem?_getD]
  have hescape : pbuffer.getD (PRO_IDX_PKT_HEADER_LEN + q.length) 0 = 0xFF := by
    have hlast := hstands q.length (by rw [List.length_append]; exact Nat.lt_succ_self _)
    rw [Nat.zero_add] at hlast
    refine hlast.trans ?_
    simp
  -- The units before the escape, the escape, and the round that ends the loop.
  obtain ⟨out, offsets, -, -, hloop, hreads⟩ := unpackLoop_units hfits h
    (254 - n + 2) 0 [] (by omega) hstandsFront
  rw [Nat.zero_add] at hloop hreads
  obtain ⟨⟨out', hend⟩, hmem⟩ := escape_reads_behind
    (fun i => pbuffer.getD (PRO_IDX_PKT_HEADER_LEN + i) 0) hlength hfits hescape (254 - n)
    ([] ++ out)
  have hrounds : 254 - n + 2 + n = 256 := by omega
  rw [hrounds, hend] at hloop
  rw [hrounds] at hreads
  constructor
  · rw [proUnpackPkg, hloop]
    exact ⟨_, rfl⟩
  · rw [unpackReads, hreads]
    exact List.mem_append_right _ hmem

/-- A whole frame is unpacked, within the bound exactly where its payload has at most so many units.
-/
theorem unpackBounded_iff_units (hfits : lengthByte pbuffer ≤ 250)
    (hwhole : lengthByte pbuffer + PRO_IDX_PKT_HEADER_LEN ≤ pbuffer.length) :
    (proUnpackPkg pbuffer (lengthByte pbuffer)).isSome ∧ (UnpackBounded pbuffer
      ↔ ∃ n ≤ PRO_MAX_DATADOMAIN_SIZE, Units (payload pbuffer) n) := by
  rcases units_or_dangling (payload pbuffer) with ⟨n, hunits⟩ | ⟨q, n, hpayload, hunits⟩
  · obtain ⟨⟨info, hinfo, hlen⟩, hreads⟩ := unpack_of_units hfits hwhole hunits
    refine ⟨by rw [hinfo]; rfl, ?_, ?_⟩
    · rintro ⟨⟨info', hinfo', hle⟩, -⟩
      rw [hinfo] at hinfo'
      obtain rfl := Option.some.inj hinfo'
      exact ⟨n, by omega, hunits⟩
    · rintro ⟨m, hm, hunits'⟩
      obtain ⟨⟨info', hinfo', hlen'⟩, -⟩ := unpack_of_units hfits hwhole hunits'
      exact ⟨⟨info', hinfo', by omega⟩, hreads⟩
  · obtain ⟨⟨info, hinfo⟩, hmem⟩ := unpack_of_dangling hfits hwhole hpayload hunits
    refine ⟨by rw [hinfo]; rfl, ?_, ?_⟩
    · rintro ⟨-, hreads⟩
      exact absurd (hreads _ hmem) (Nat.lt_irrefl _)
    · -- A payload that ends in an escape is not a list of units: units are read to their end only.
      rintro ⟨m, -, hunits'⟩
      obtain ⟨-, hreads⟩ := unpack_of_units hfits hwhole hunits'
      exact absurd (hreads _ hmem) (Nat.lt_irrefl _)

end Buffer

/-! ### The buffers of a run -/

/-- The iteration with this read goes on from the locals behind it. -/
theorem threadRxIter_afterRead {s t : RxLoop} {r : ReadResult} (h : afterRead s r = some t) :
    threadRxIter s r = some (threadRxCheck t) := by
  cases r with
  | bytes bs =>
    cases bs with
    | nil => exact nomatch h
    | cons b bs =>
      rw [threadRxIter, ← Option.some.inj h]
  | error =>
    rw [afterRead] at h
    split at h
    · exact nomatch h
    · rename_i hne
      rw [threadRxIter, dif_neg hne, ← Option.some.inj h]

/-- Without a read the locals stay, and the loop ends where `len` would be -1. -/
theorem threadRxIter_of_none {s : RxLoop} {r : ReadResult} (h : afterRead s r = none) :
    threadRxIter s r = some s ∨ threadRxIter s r = none := by
  cases r with
  | bytes bs =>
    cases bs with
    | nil => exact Or.inl rfl
    | cons b bs => exact nomatch h
  | error =>
    rw [afterRead] at h
    split at h
    · rename_i hempty
      exact Or.inr (dif_pos hempty)
    · exact nomatch h

/-- A step of the machine is a round of the loop. -/
theorem step_eq_iter {s : RxLoop} {r : ReadResult} {o : Option RxLoop}
    (h : threadRx.step (some s) r = some o) : threadRxIter s r = o := by
  cases r with
  | bytes bs =>
    by_cases hguard : s.content.length + bs.length ≤ PRO_MAX_BUFFER_SIZE
    · rw [show threadRx.step (some s) (.bytes bs) = some (threadRxIter s (.bytes bs)) from
        if_pos hguard] at h
      exact Option.some.inj h
    · rw [show threadRx.step (some s) (.bytes bs) = none from if_neg hguard] at h
      exact nomatch h
  | error => exact Option.some.inj h

/-- The buffer holds no more than was asked for. -/
theorem afterRead_length {s t : RxLoop} {r : ReadResult}
    (hlen : s.content.length ≤ PRO_MAX_BUFFER_SIZE) (hstep : (threadRx.step (some s) r).isSome)
    (h : afterRead s r = some t) : t.content.length ≤ PRO_MAX_BUFFER_SIZE := by
  cases r with
  | bytes bs =>
    have hguard : s.content.length + bs.length ≤ PRO_MAX_BUFFER_SIZE := by
      by_contra hnot
      rw [show threadRx.step (some s) (.bytes bs) = none from if_neg hnot] at hstep
      exact nomatch hstep
    cases bs with
    | nil => exact nomatch h
    | cons b bs =>
      rw [← Option.some.inj h, List.length_append]
      exact hguard
  | error =>
    rw [afterRead] at h
    split at h
    · exact nomatch h
    · rw [← Option.some.inj h, List.length_dropLast]
      omega

/-- The thread's buffer never holds more than its size. -/
theorem content_length_le {es : List ReadResult} {s : RxLoop}
    (h : threadRx.exec es = some (some s)) : s.content.length ≤ PRO_MAX_BUFFER_SIZE := by
  have hinv : ∀ t, some s = some t → t.content.length ≤ PRO_MAX_BUFFER_SIZE := by
    refine (Machine.Run.of_exec h).invariant
      (I := fun o => ∀ t, o = some t → t.content.length ≤ PRO_MAX_BUFFER_SIZE) ?_ ?_
    · intro t ht
      rw [← Option.some.inj ht]
      exact Nat.zero_le _
    · intro o r o' _ ho hstep t ht
      cases o with
      | none => exact nomatch hstep
      | some s₀ =>
        have hiter : threadRxIter s₀ r = some t := (step_eq_iter hstep).trans ht
        have hlen := ho s₀ rfl
        cases hread : afterRead s₀ r with
        | none =>
          rcases threadRxIter_of_none hread with hsame | hend
          · rw [hsame] at hiter
            rw [← Option.some.inj hiter]
            exact hlen
          · rw [hend] at hiter
            exact nomatch hiter
        | some t₀ =>
          -- What is left behind the check is no longer than what was read, or nothing.
          have hlen₀ := afterRead_length hlen (by rw [hstep]; rfl) hread
          rw [threadRxIter_afterRead hread] at hiter
          rw [← Option.some.inj hiter]
          rcases threadRxCheck_bytes t₀ with ⟨-, hle⟩ | ⟨f, -, hempty, -⟩
          · exact Nat.le_trans hle hlen₀
          · rw [hempty]
            exact Nat.zero_le _
  exact hinv s rfl

/-- What `thread_rx` passes on: at most 255 bytes were received, a whole frame among them. -/
theorem passedBuffer_bounds {es : List ReadResult} {s : RxLoop} {r : ReadResult}
    {pbuffer : List Byte} (hrun : threadRx.exec es = some (some s))
    (hstep : (threadRx.step (some s) r).isSome) (hpass : passedBuffer s r = some pbuffer) :
    lengthByte pbuffer ≤ 250 ∧
      lengthByte pbuffer + PRO_IDX_PKT_HEADER_LEN ≤ pbuffer.length := by
  obtain ⟨t, ht, hbuf⟩ := Option.bind_eq_some_iff.mp hpass
  have hlen := afterRead_length (content_length_le hrun) hstep ht
  obtain ⟨skip, d, h, rest, hsplit, -, -, hhead, hwhole, rfl⟩ := indataBuffer_split hbuf
  have hd : d.length ≤ PRO_MAX_BUFFER_SIZE := by
    rw [hsplit, List.length_append] at hlen
    omega
  have hbyte : lengthByte (d ++ rest) = h.length := by
    rw [getDataHead_length hhead, lengthByte, List.getD_eq_getElem?_getD,
      List.getD_eq_getElem?_getD, List.getElem?_append_left]
    simp only [PRO_IDX_PKT_HEADER_LEN] at hwhole
    omega
  rw [hbyte, List.length_append]
  simp only [PRO_IDX_PKT_HEADER_LEN, PRO_MAX_BUFFER_SIZE] at hwhole hd ⊢
  omega

/-! ### The theorem -/

/-- On every buffer that `thread_rx` passes to `deal_with_indata`, `pro_unpack_pkg` ends. It keeps
to the payload and to `info->data` if and only if the payload is at most 240 units. -/
theorem unpack_bounded_iff (es : List ReadResult) (s : RxLoop) (r : ReadResult)
    (pbuffer : List Byte) (hrun : threadRx.exec es = some (some s))
    (hstep : (threadRx.step (some s) r).isSome) (hpass : passedBuffer s r = some pbuffer) :
    (proUnpackPkg pbuffer (lengthByte pbuffer)).isSome ∧ (UnpackBounded pbuffer
      ↔ ∃ n ≤ PRO_MAX_DATADOMAIN_SIZE, Units (payload pbuffer) n) := by
  obtain ⟨hfits, hwhole⟩ := passedBuffer_bounds hrun hstep hpass
  exact unpackBounded_iff_units hfits hwhole

/-- The buffer of a frame that is read at once. -/
def firstBuffer (frame : List Byte) : List Byte :=
  frame ++ (List.replicate CMD_BUFFER_LEN 0).drop frame.length

/-- The theorem applied to a first read of a frame with two units. -/
theorem unpack_bounded_iff_two_units :
    passedBuffer RxLoop.init (.bytes [0xAA, 0x2D, 0x03, 0x11, 0x11, 0x41, 0xFF, 0xFA])
        = some (firstBuffer [0xAA, 0x2D, 0x03, 0x11, 0x11, 0x41, 0xFF, 0xFA]) ∧
      UnpackBounded (firstBuffer [0xAA, 0x2D, 0x03, 0x11, 0x11, 0x41, 0xFF, 0xFA]) := by
  have hpass : passedBuffer RxLoop.init
      (.bytes [0xAA, 0x2D, 0x03, 0x11, 0x11, 0x41, 0xFF, 0xFA])
        = some (firstBuffer [0xAA, 0x2D, 0x03, 0x11, 0x11, 0x41, 0xFF, 0xFA]) := by
    decide +kernel
  refine ⟨hpass, (unpack_bounded_iff [] RxLoop.init _ _ rfl (by decide) hpass).2.mpr ?_⟩
  exact ⟨2, by decide, Units.plain (by decide) (Units.escape Units.nil)⟩

/-- An escape as the last byte of the payload: the byte at the offset 1 is read, and `L` is 1. -/
theorem escape_at_end_reads_behind :
    passedBuffer RxLoop.init (.bytes [0xAA, 0x2D, 0x01, 0x11, 0x11, 0xFF])
        = some (firstBuffer [0xAA, 0x2D, 0x01, 0x11, 0x11, 0xFF]) ∧
      ¬ UnpackBounded (firstBuffer [0xAA, 0x2D, 0x01, 0x11, 0x11, 0xFF]) := by
  refine ⟨by decide +kernel, ?_⟩
  rintro ⟨-, hreads⟩
  have hmem : 1 ∈ unpackReads (firstBuffer [0xAA, 0x2D, 0x01, 0x11, 0x11, 0xFF])
      (lengthByte (firstBuffer [0xAA, 0x2D, 0x01, 0x11, 0x11, 0xFF])) := by
    decide
  exact absurd (hreads 1 hmem) (by decide)

end LearnGit.Proofs.Uart
