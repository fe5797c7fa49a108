import LearnGit.Proofs.Uart.ThreadRx

/-!
# `LearnGit.Proofs.Uart.RxProgress`: when the receive loop goes on receiving

`Progress` is what the loop needs to go on: the buffer is defined and has room for the next
read, and some further bytes on the line bring a given frame through. `threadRx_progress_iff`
says exactly which runs keep it in every state: those whose reads are all `GoodRead`s.

Three things break it. A read error on the empty buffer makes `len` negative. A header that
`get_data_head` refuses leaves the buffer as it is when the read has filled it, and the next
read then asks for no bytes. A header that announces more bytes than the buffer has room for
is never completed and never dropped (`Blocked`).

The hard direction is that nothing else does. `drain` feeds the byte 1 until the buffer is
empty: `drainMeasure` falls with every byte.
-/

set_option autoImplicit false

namespace LearnGit.Proofs.Uart

open LearnGit.Lib
open LearnGit.Uart.Link

/-- The search for the next frame ends at an accepted header whose frame is longer than the
buffer. A start byte with a refused header is passed over. -/
def Blocked : List Byte → Prop
  | [] => False
  | b :: bs =>
    if b = PRO_PKT_START_CHAR then
      match getDataHead (b :: bs) with
      | none => Blocked bs
      | some h => PRO_MAX_BUFFER_SIZE < h.length + PRO_IDX_PKT_HEADER_LEN
    else Blocked bs

/-- A full buffer with a refused header at its front. -/
def FullBadHead (c : List Byte) : Prop :=
  c.length = PRO_MAX_BUFFER_SIZE ∧ c.head? = some PRO_PKT_START_CHAR ∧ getDataHead c = none

/-- Whatever frame is sent next, there are bytes that bring it through. -/
def Receivable (st : RxLoop) : Prop :=
  ∀ f, ValidFrame f → ∃ (reads : List (List Byte)) (st' : RxLoop) (pre : List (List Byte)),
    threadRx.execFrom (some st) (reads.map .bytes) = some (some st') ∧
      st'.handed = st.handed ++ pre ++ [f]

/-- The loop is defined, its next read asks for at least one byte, and a later frame can still
be received. -/
def Progress (s : Option RxLoop) : Prop :=
  ∃ st, s = some st ∧ 0 ≤ st.len ∧ st.len < PRO_MAX_BUFFER_SIZE ∧ Receivable st

/-- The reads that keep `Progress`. -/
def GoodRead (s : Option RxLoop) (r : ReadResult) : Prop :=
  match s, r with
  | none, _ => False
  | some s, .error => s.content ≠ []
  | some _, .bytes [] => True
  | some s, .bytes (b :: bs) =>
    ¬ Blocked (s.content ++ b :: bs) ∧ ¬ FullBadHead (s.content ++ b :: bs)

/-! ### Blocked buffers -/

/-- Whether a header is accepted depends on its id byte only. -/
theorem getDataHead_none_congr {a b : List Byte} (h : a.getD 1 0 = b.getD 1 0) :
    getDataHead a = none ↔ getDataHead b = none := by
  unfold getDataHead
  rw [h]
  dsimp only
  split
  · simp
  · split <;> simp

/-- What is read does not change the bytes before it. -/
theorem getD_append_left {c bs : List Byte} {i : Nat} (h : i < c.length) :
    (c ++ bs).getD i 0 = c.getD i 0 := by
  rw [List.getD_eq_getElem?_getD, List.getD_eq_getElem?_getD, List.getElem?_append_left h]

/-- More bytes do not unblock a buffer. -/
theorem blocked_append {c : List Byte} (bs : List Byte) (h : Blocked c) : Blocked (c ++ bs) := by
  induction c with
  | nil => exact h.elim
  | cons b c ih =>
    rw [List.cons_append]
    unfold Blocked at h ⊢
    by_cases hb : b = PRO_PKT_START_CHAR
    · rw [if_pos hb] at h ⊢
      cases hh : getDataHead (b :: c) with
      | none =>
        rw [hh] at h
        -- A header whose id byte is there is refused with more bytes, too.
        have hc : c ≠ [] := by
          rintro rfl
          exact h
        have hnone : getDataHead (b :: (c ++ bs)) = none := by
          rw [← List.cons_append, getDataHead_none_congr (getD_append_left _), hh]
          simpa using List.length_pos_iff.mpr hc
        rw [hnone]
        exact ih h
      | some hd =>
        rw [hh] at h
        -- A header with a length byte has three bytes, and they stay.
        have hlen : 2 < (b :: c).length := by
          by_contra hshort
          have hzero : (b :: c).getD 2 0 = 0 := by
            rw [List.getD_eq_getElem?_getD, List.getElem?_eq_none (Nat.not_lt.mp hshort)]
            rfl
          have := getDataHead_length hh
          rw [hzero] at this
          simp only [PRO_MAX_BUFFER_SIZE, PRO_IDX_PKT_HEADER_LEN] at h
          have h0 : (0 : Byte).toNat = 0 := rfl
          omega
        rw [← List.cons_append, getDataHead_congr (getD_append_left (by omega))
          (getD_append_left hlen), hh]
        exact h
    · rw [if_neg hb] at h ⊢
      exact ih h

/-- The byte 1 at the end does not block a buffer. -/
theorem blocked_of_append_one {c : List Byte} (h : Blocked (c ++ [0x01])) : Blocked c := by
  induction c with
  | nil => exact absurd h (by simp [Blocked, PRO_PKT_START_CHAR])
  | cons b c ih =>
    rw [List.cons_append] at h
    unfold Blocked at h ⊢
    by_cases hb : b = PRO_PKT_START_CHAR
    · rw [if_pos hb] at h ⊢
      cases hh : getDataHead (b :: (c ++ [0x01])) with
      | none =>
        rw [hh] at h
        have hc := ih h
        have hne : c ≠ [] := by
          rintro rfl
          exact hc
        have hnone : getDataHead (b :: c) = none := by
          rw [← List.cons_append, getDataHead_none_congr (getD_append_left _)] at hh
          · exact hh
          · simpa using List.length_pos_iff.mpr hne
        rw [hnone]
        exact hc
      | some hd =>
        rw [hh] at h
        have hbyte := getDataHead_length hh
        simp only [PRO_MAX_BUFFER_SIZE, PRO_IDX_PKT_HEADER_LEN] at h
        have h0 : (0 : Byte).toNat = 0 := rfl
        have h1 : (0x01 : Byte).toNat = 1 := rfl
        -- The byte 1 may be the length byte itself. A payload of one byte blocks nothing.
        cases c with
        | nil =>
          rw [show (b :: ([] ++ [0x01]) : List Byte).getD 2 0 = 0 from rfl] at hbyte
          omega
        | cons x c =>
          cases c with
          | nil =>
            rw [show (b :: ([x] ++ [0x01]) : List Byte).getD 2 0 = 0x01 from rfl] at hbyte
            omega
          | cons y c =>
            rw [← getDataHead_congr (a := b :: (x :: y :: c ++ [0x01])) (b := b :: x :: y :: c)
              rfl rfl, hh]
            simp only [PRO_MAX_BUFFER_SIZE, PRO_IDX_PKT_HEADER_LEN]
            exact h
    · rw [if_neg hb] at h ⊢
      exact ih h

/-- What stands before the first start byte does not matter. -/
theorem blocked_skip {skip : List Byte} (hskip : PRO_PKT_START_CHAR ∉ skip) (d : List Byte) :
    Blocked (skip ++ d) ↔ Blocked d := by
  induction skip with
  | nil => rfl
  | cons b skip ih =>
    rw [List.mem_cons, not_or] at hskip
    rw [List.cons_append, Blocked, if_neg (Ne.symm hskip.1)]
    exact ih hskip.2

/-- Without a start character nothing is blocked. -/
theorem not_blocked_of_notMem {c : List Byte} (h : PRO_PKT_START_CHAR ∉ c) : ¬ Blocked c := by
  have := blocked_skip h []
  rw [List.append_nil] at this
  rw [this]
  exact id

/-- A buffer that begins with the start byte and an accepted header is blocked by its length. -/
theorem blocked_of_head {d : List Byte} (hd : d.head? = some PRO_PKT_START_CHAR)
    {h : DataInfoHeader} (hh : getDataHead d = some h) :
    Blocked d ↔ PRO_MAX_BUFFER_SIZE < h.length + PRO_IDX_PKT_HEADER_LEN := by
  cases d with
  | nil => exact nomatch hd
  | cons b bs =>
    obtain rfl : b = PRO_PKT_START_CHAR := by simpa using hd
    rw [Blocked, if_pos rfl, hh]

/-- An iteration keeps a buffer blocked or not, and hands nothing on from a blocked one. -/
theorem threadRxCheck_blocked {s : RxLoop} (hlen : s.content.length ≤ PRO_MAX_BUFFER_SIZE) :
    (Blocked (threadRxCheck s).content ↔ Blocked s.content) ∧
      (Blocked s.content → (threadRxCheck s).handed = s.handed) := by
  rcases threadRxCheck_cases s with ⟨hmem, hc, hh⟩ | ⟨skip, d, hsplit, hskip, hhead, hout⟩
  · rw [hc]
    exact ⟨iff_of_false id (not_blocked_of_notMem hmem), fun _ => hh⟩
  · have hd : d.length ≤ PRO_MAX_BUFFER_SIZE := by
      rw [hsplit, List.length_append] at hlen
      omega
    rw [hsplit, blocked_skip hskip]
    generalize threadRxCheck s = s' at hout
    cases hout with
    | short _ _ => exact ⟨Iff.rfl, fun _ => rfl⟩
    | incomplete _ _ _ _ => exact ⟨Iff.rfl, fun _ => rfl⟩
    | badHead _ _ hnone =>
      refine ⟨?_, fun _ => rfl⟩
      cases d with
      | nil => exact nomatch hhead
      | cons b bs =>
        obtain rfl : b = PRO_PKT_START_CHAR := by simpa using hhead
        -- `Blocked` passes over the refused start byte, as the next search will.
        rw [List.set_cons_zero, Blocked, if_neg (by decide), Blocked, if_pos rfl, hnone]
    | complete h hh hge =>
      -- A frame that is complete is not longer than the buffer.
      have hnot : ¬ Blocked d := by
        rw [blocked_of_head hhead hh]
        omega
      exact ⟨iff_of_false id hnot, fun hb => absurd hb hnot⟩

/-- From a blocked buffer no bytes bring anything through. -/
theorem execFrom_blocked {reads : List (List Byte)} {st st' : RxLoop} (hb : Blocked st.content)
    (hrun : threadRx.execFrom (some st) (reads.map .bytes) = some (some st')) :
    st'.handed = st.handed := by
  induction reads generalizing st with
  | nil =>
    have : st = st' := by simpa using hrun
    rw [this]
  | cons bs reads ih =>
    rw [List.map_cons, Machine.execFrom_cons, Option.bind_eq_some_iff] at hrun
    obtain ⟨t, hstep, hrest⟩ := hrun
    by_cases hfit : st.content.length + bs.length ≤ PRO_MAX_BUFFER_SIZE
    · cases bs with
      | nil =>
        have ht : t = some st := by
          have : threadRx.step (some st) (.bytes []) = some (some st) := if_pos hfit
          exact (Option.some.inj (this.symm.trans hstep)).symm
        rw [ht] at hrest
        exact ih hb hrest
      | cons b bs =>
        rw [threadRx_step_bytes (by simp) hfit] at hstep
        have hchk := threadRxCheck_blocked
          (s := { st with content := st.content ++ b :: bs, rest := st.rest.drop (b :: bs).length })
          (by rw [List.length_append]; exact hfit)
        have hb' := blocked_append (b :: bs) hb
        rw [← Option.some.inj hstep] at hrest
        rw [ih (hchk.1.mpr hb') hrest, hchk.2 hb']
    · have hnone : threadRx.step (some st) (.bytes bs) = none := if_neg hfit
      rw [hnone] at hstep
      exact nomatch hstep

/-- A loop that can receive is not blocked. -/
theorem not_blocked_of_receivable {st : RxLoop} (h : Receivable st) : ¬ Blocked st.content := by
  intro hb
  obtain ⟨reads, st', pre, hrun, hhanded⟩ := h (ackBytes 1) (validFrame_ackBytes 1)
  have hsame := congrArg List.length (hhanded.symm.trans (execFrom_blocked hb hrun))
  simp only [List.length_append, List.length_singleton] at hsame
  omega

/-! ### Emptying the buffer -/

/-- What an iteration leaves: no refused header at the front. -/
def Settled (c : List Byte) : Prop :=
  PRO_IDX_PKT_HEADER_LEN ≤ c.length → c.head? = some PRO_PKT_START_CHAR → getDataHead c ≠ none

/-- Behind its check the buffer is settled. -/
theorem settled_threadRxCheck (s : RxLoop) : Settled (threadRxCheck s).content := by
  intro hlong hstart
  rcases threadRxCheck_cases s with ⟨_, hc, _⟩ | ⟨skip, d, _, _, hhead, hout⟩
  · rw [hc] at hstart
    exact nomatch hstart
  · generalize threadRxCheck s = s' at hout hlong hstart
    cases hout with
    | short _ hlt => exact absurd hlong (Nat.not_le.mpr hlt)
    | incomplete _ h hh _ => simp [hh]
    | complete _ _ _ => exact nomatch hstart
    | badHead _ _ _ =>
      cases d with
      | nil => exact nomatch hhead
      | cons b bs => exact absurd hstart (by simp [PRO_PKT_START_CHAR])

/-- The length of the buffer after an iteration, when the buffer is not blocked. -/
theorem threadRxCheck_length_lt {s : RxLoop} (hlen : s.content.length ≤ PRO_MAX_BUFFER_SIZE)
    (hb : ¬ Blocked s.content) :
    (threadRxCheck s).content.length < PRO_MAX_BUFFER_SIZE ↔ ¬ FullBadHead s.content := by
  rcases threadRxCheck_cases s with ⟨hmem, hc, _⟩ | ⟨skip, d, hsplit, hskip, hhead, hout⟩
  · rw [hc]
    refine iff_of_true (by simp [PRO_MAX_BUFFER_SIZE]) ?_
    rintro ⟨_, hstart, _⟩
    exact hmem (List.mem_of_head? hstart)
  · have hd := congrArg List.length hsplit
    rw [List.length_append] at hd
    rw [hsplit, blocked_skip hskip] at hb
    -- With the start byte at the front nothing is skipped.
    have hfull : FullBadHead s.content → skip = [] := by
      rintro ⟨_, hstart, _⟩
      cases skip with
      | nil => rfl
      | cons b skip =>
        rw [hsplit, List.cons_append, List.head?_cons] at hstart
        exact absurd (by simp [Option.some.inj hstart]) hskip
    generalize threadRxCheck s = s' at hout
    cases hout with
    | short _ hlt =>
      refine iff_of_true ?_ fun hf => ?_
      · simp only [PRO_IDX_PKT_HEADER_LEN, PRO_MAX_BUFFER_SIZE] at hlt ⊢
        omega
      · have := hf.1
        rw [hfull hf] at hd
        simp only [PRO_IDX_PKT_HEADER_LEN, PRO_MAX_BUFFER_SIZE, List.length_nil] at *
        omega
    | incomplete _ h hh hlt =>
      rw [blocked_of_head hhead hh] at hb
      refine iff_of_true (by dsimp only; omega) fun hf => ?_
      have hnone := hf.2.2
      rw [hsplit, hfull hf, List.nil_append, hh] at hnone
      exact absurd hnone (Option.some_ne_none _)
    | complete h hh _ =>
      refine iff_of_true (by simp [PRO_MAX_BUFFER_SIZE]) fun hf => ?_
      have hnone := hf.2.2
      rw [hsplit, hfull hf, List.nil_append, hh] at hnone
      exact absurd hnone (Option.some_ne_none _)
    | badHead _ _ hnone =>
      dsimp only
      rw [List.length_set]
      constructor
      · intro hlt hf
        have := hf.1
        rw [hfull hf, List.length_nil] at hd
        omega
      · intro hf
        by_contra hge
        have hnil : skip = [] := List.eq_nil_of_length_eq_zero (by omega)
        rw [hnil, List.nil_append] at hsplit
        exact hf ⟨by rw [hsplit]; omega, by rw [hsplit]; exact hhead, by rw [hsplit]; exact hnone⟩

/-- Falls with every byte 1: a refused start byte is worth more than moving to the next one,
and that more than the room in the buffer. -/
def drainMeasure (c : List Byte) : Nat :=
  1024 * c.count PRO_PKT_START_CHAR + (if c.head? = some PRO_PKT_START_CHAR then 0 else 512)
    + (256 - c.length)

/-- The byte 1 empties the buffer or makes the measure smaller. -/
theorem drainMeasure_lt {s : RxLoop} {c : List Byte} (hs : s.content = c ++ [0x01])
    (hlen : c.length < PRO_MAX_BUFFER_SIZE) (hb : ¬ Blocked c) :
    (threadRxCheck s).content = [] ∨
      drainMeasure (threadRxCheck s).content < drainMeasure c := by
  rcases threadRxCheck_cases s with ⟨hmem, hc, _⟩ | ⟨skip, d, hsplit, hskip, hhead, hout⟩
  · exact Or.inl hc
  · rw [hs] at hsplit
    have hd := congrArg List.length hsplit
    simp only [List.length_append, List.length_singleton] at hd
    have hcount : d.count PRO_PKT_START_CHAR = c.count PRO_PKT_START_CHAR := by
      have hsum := congrArg (List.count PRO_PKT_START_CHAR) hsplit
      rw [List.count_append, List.count_append, List.count_eq_zero.mpr hskip] at hsum
      have hone : List.count PRO_PKT_START_CHAR [0x01] = 0 := by decide
      omega
    have hc : c ≠ [] := by
      rintro rfl
      cases skip with
      | nil =>
        rw [List.nil_append, List.nil_append] at hsplit
        rw [← hsplit] at hhead
        exact absurd hhead (by decide)
      | cons b skip =>
        simp only [List.length_nil, List.length_cons] at hd
        have hnil : d = [] := List.eq_nil_of_length_eq_zero (by omega)
        rw [hnil] at hhead
        exact nomatch hhead
    simp only [PRO_MAX_BUFFER_SIZE] at hlen
    -- Either the start byte is at the front already, or the buffer moves up to it.
    have hmove : drainMeasure d < drainMeasure c := by
      unfold drainMeasure
      rw [hcount, if_pos hhead]
      cases skip with
      | nil => simp only [List.length_nil] at hd; omega
      | cons b skip =>
        have hne : c.head? ≠ some PRO_PKT_START_CHAR := by
          cases c with
          | nil => exact absurd rfl hc
          | cons x c =>
            simp only [List.cons_append, List.cons.injEq] at hsplit
            rw [hsplit.1]
            intro hx
            exact hskip (by simp [Option.some.inj hx])
        rw [if_neg hne]
        simp only [List.length_cons] at hd
        omega
    generalize threadRxCheck s = s' at hout
    cases hout with
    | short _ _ => exact Or.inr hmove
    | incomplete _ _ _ _ => exact Or.inr hmove
    | complete _ _ _ => exact Or.inl rfl
    | badHead _ _ _ =>
      cases d with
      | nil => exact nomatch hhead
      | cons b bs =>
        obtain rfl : b = PRO_PKT_START_CHAR := by simpa using hhead
        right
        -- One start byte less outweighs everything else.
        rw [List.count_cons_self] at hcount
        show drainMeasure (0x00 :: bs) < _
        unfold drainMeasure
        rw [List.count_cons_of_ne (by decide), ← hcount, if_neg (by simp [PRO_PKT_START_CHAR])]
        omega

/-- From every buffer that is settled, has room and is not blocked, some bytes lead to an empty
buffer. The induction is on `drainMeasure`. -/
theorem drain {st : RxLoop} (hset : Settled st.content)
    (hlen : st.content.length < PRO_MAX_BUFFER_SIZE) (hb : ¬ Blocked st.content) :
    ∃ (reads : List (List Byte)) (st' : RxLoop) (pre : List (List Byte)),
      threadRx.execFrom (some st) (reads.map .bytes) = some (some st') ∧ st'.content = [] ∧
        st'.handed = st.handed ++ pre := by
  generalize hn : drainMeasure st.content = n
  induction n using Nat.strongRecOn generalizing st with
  | ind n ih =>
    have hfit : st.content.length + ([0x01] : List Byte).length ≤ PRO_MAX_BUFFER_SIZE := hlen
    generalize hs : ({ st with
      content := st.content ++ [0x01]
      rest := st.rest.drop ([0x01] : List Byte).length } : RxLoop) = s
    have hsc : s.content = st.content ++ [0x01] := by rw [← hs]
    have hsh : s.handed = st.handed := by rw [← hs]
    have hslen : s.content.length ≤ PRO_MAX_BUFFER_SIZE := by
      rw [hsc, List.length_append]
      exact hfit
    have hstep : threadRx.step (some st) (.bytes [0x01]) = some (some (threadRxCheck s)) := by
      rw [threadRx_step_bytes (by simp) hfit, hs]
    have hgrow : ∃ pre, (threadRxCheck s).handed = st.handed ++ pre := by
      rcases threadRxCheck_bytes s with ⟨hh, _⟩ | ⟨f, hh, _⟩
      · exact ⟨[], by rw [hh, hsh, List.append_nil]⟩
      · exact ⟨[f], by rw [hh, hsh]⟩
    obtain ⟨pre, hpre⟩ := hgrow
    have hbs : ¬ Blocked s.content := by
      rw [hsc]
      exact fun h => hb (blocked_of_append_one h)
    rcases drainMeasure_lt hsc hlen hb with hempty | hlt
    · refine ⟨[[0x01]], threadRxCheck s, pre, ?_, hempty, hpre⟩
      show (threadRx.step (some st) (.bytes [0x01])).bind _ = _
      rw [hstep]
      rfl
    · -- The buffer cannot be full with a refused header: the header stood there before.
      have hroom : ¬ FullBadHead s.content := by
        rintro ⟨hfull, hstart, hnone⟩
        rw [hsc] at hfull hstart hnone
        rw [List.length_append, List.length_singleton] at hfull
        simp only [PRO_MAX_BUFFER_SIZE] at hfull
        have hstart' : st.content.head? = some PRO_PKT_START_CHAR := by
          cases hc : st.content with
          | nil => simp [hc] at hfull
          | cons b bs =>
            rw [hc] at hstart
            exact hstart
        refine hset (by simp only [PRO_IDX_PKT_HEADER_LEN]; omega) hstart' ?_
        rw [← getDataHead_none_congr (a := st.content ++ [0x01]) (getD_append_left (by omega))]
        exact hnone
      obtain ⟨reads, st', pre', hrun, hempty, hhanded⟩ := ih _ (hn ▸ hlt)
        (settled_threadRxCheck s) ((threadRxCheck_length_lt hslen hbs).mpr hroom)
        (fun h => hbs ((threadRxCheck_blocked hslen).1.mp h)) rfl
      refine ⟨[0x01] :: reads, st', pre ++ pre', ?_, hempty, ?_⟩
      · rw [List.map_cons, Machine.execFrom_cons, hstep]
        exact hrun
      · rw [hhanded, hpre, List.append_assoc]

/-- A settled buffer that has room and is not blocked can receive. -/
theorem receivable_of_settled {st : RxLoop} (hset : Settled st.content)
    (hlen : st.content.length < PRO_MAX_BUFFER_SIZE) (hb : ¬ Blocked st.content) :
    Receivable st := by
  intro f hf
  obtain ⟨reads, st', pre, hrun, hempty, hhanded⟩ := drain hset hlen hb
  have hshape := hf.shape
  have hlong := hshape.long
  simp only [PRO_IDX_PKT_HEADER_LEN] at hlong
  have hne : ∀ r ∈ [f], r ≠ [] := by
    intro r hr hnil
    rw [List.mem_singleton.mp hr] at hnil
    simp [hnil] at hlong
  -- With the buffer empty, the frame in one read is handed on.
  have hframe := execFrom_frame hshape hne (s := st') (k := 0) (by omega)
    (by rw [hempty, List.take_zero]) (by simp)
  refine ⟨reads ++ [f], ⟨[], List.replicate CMD_BUFFER_LEN 0, st'.handed ++ [f]⟩, pre, ?_, ?_⟩
  · rw [List.map_append, Machine.execFrom_append, hrun]
    exact hframe
  · rw [hhanded]

/-! ### Runs -/

/-- With a settled buffer the thread makes progress where it is not blocked and has room left. -/
theorem progress_some_iff {st : RxLoop} (hset : Settled st.content) :
    Progress (some st) ↔
      ¬ Blocked st.content ∧ st.content.length < PRO_MAX_BUFFER_SIZE := by
  constructor
  · rintro ⟨st', heq, _, hlt, hrec⟩
    obtain rfl := Option.some.inj heq
    exact ⟨not_blocked_of_receivable hrec, Int.ofNat_lt.mp hlt⟩
  · rintro ⟨hb, hlen⟩
    exact ⟨st, rfl, Int.natCast_nonneg _, Int.ofNat_lt.mpr hlen, receivable_of_settled hset hlen hb⟩

/-- An iteration on the buffer `s` keeps `Progress` exactly when the buffer is neither blocked
nor full behind a refused header. -/
theorem progress_threadRxCheck_iff {s : RxLoop} (hlen : s.content.length ≤ PRO_MAX_BUFFER_SIZE) :
    Progress (some (threadRxCheck s)) ↔ ¬ Blocked s.content ∧ ¬ FullBadHead s.content := by
  rw [progress_some_iff (settled_threadRxCheck s), (threadRxCheck_blocked hlen).1]
  exact and_congr_right fun hb => threadRxCheck_length_lt hlen hb

/-- One step of the loop keeps `Progress` exactly when the read is good. -/
theorem progress_step_iff (s : Option RxLoop) (r : ReadResult) (s' : Option RxLoop)
    (hs : Progress s) (hstep : threadRx.step s r = some s') : Progress s' ↔ GoodRead s r := by
  obtain ⟨st, rfl, _, hlt, hrec⟩ := hs
  have hlen : st.content.length < PRO_MAX_BUFFER_SIZE := Int.ofNat_lt.mp hlt
  cases r with
  | error =>
    have hs' : s' = threadRxIter st .error := (Option.some.inj hstep).symm
    show Progress s' ↔ st.content ≠ []
    rw [hs', threadRxIter]
    split
    · rename_i hnil
      refine iff_of_false ?_ (not_not.mpr hnil)
      rintro ⟨_, heq, _⟩
      exact nomatch heq
    · rename_i hne
      refine iff_of_true ?_ hne
      -- `len` goes down by one. The buffer was not blocked, and a part of it is not either.
      have hdrop : st.content.dropLast.length < PRO_MAX_BUFFER_SIZE := by
        rw [List.length_dropLast]
        omega
      rw [progress_threadRxCheck_iff (Nat.le_of_lt hdrop)]
      refine ⟨fun hb => not_blocked_of_receivable hrec ?_,
        fun hf => absurd hf.1 (Nat.ne_of_lt hdrop)⟩
      rw [← List.dropLast_concat_getLast hne]
      exact blocked_append _ hb
  | bytes bs =>
    cases bs with
    | nil =>
      have hs' : s' = some st := by
        have : threadRx.step (some st) (.bytes []) = some (some st) := if_pos (Nat.le_of_lt hlen)
        exact (Option.some.inj (this.symm.trans hstep)).symm
      rw [hs']
      exact iff_of_true ⟨st, rfl, Int.natCast_nonneg _, hlt, hrec⟩ trivial
    | cons b bs =>
      by_cases hfit : st.content.length + (b :: bs).length ≤ PRO_MAX_BUFFER_SIZE
      · rw [threadRx_step_bytes (by simp) hfit] at hstep
        rw [← Option.some.inj hstep,
          progress_threadRxCheck_iff (by rw [List.length_append]; exact hfit)]
        rfl
      · have hnone : threadRx.step (some st) (.bytes (b :: bs)) = none := if_neg hfit
        rw [hnone] at hstep
        exact nomatch hstep

/-- At the start the thread makes progress. -/
theorem progress_init : Progress threadRx.init := by
  show Progress (some RxLoop.init)
  rw [progress_some_iff (fun h => absurd h (by decide))]
  exact ⟨id, by decide⟩

/-- Progress of the receive loop. Take any sequence of results of `read_port`. In every state
the loop passes through, `len` is from 0 to below `PRO_MAX_BUFFER_SIZE` and a later frame can
still be received, if and only if every read of the run is a `GoodRead`. -/
theorem threadRx_progress_iff (results : List ReadResult) (s : Option RxLoop)
    (hrun : threadRx.exec results = some s) :
    threadRx.Always Progress results ↔ threadRx.Run GoodRead results s :=
  Machine.always_iff_run (I := fun _ => True) progress_init trivial
    (fun s r s' _ hs hstep => ⟨progress_step_iff s r s' hs hstep, fun _ => trivial⟩) hrun

/-- The theorem applied to noise, a part of a frame and an interrupted read. -/
theorem threadRx_progress_iff_noise :
    ∃ s, threadRx.exec [.bytes [0x01], .bytes [0xAA, 0x20], .bytes [], .error] = some s ∧
      (threadRx.Always Progress [.bytes [0x01], .bytes [0xAA, 0x20], .bytes [], .error] ↔
        threadRx.Run GoodRead [.bytes [0x01], .bytes [0xAA, 0x20], .bytes [], .error] s) :=
  ⟨_, rfl, threadRx_progress_iff _ _ rfl⟩

/-- A first read that fills the buffer behind a refused header ends the progress. -/
theorem not_always_progress_of_full {bs : List Byte} (hne : bs ≠ []) (hfull : FullBadHead bs) :
    ∃ s, threadRx.exec [.bytes bs] = some s ∧ ¬ threadRx.Always Progress [.bytes bs] := by
  have hfit : RxLoop.init.content.length + bs.length ≤ PRO_MAX_BUFFER_SIZE := by
    show 0 + bs.length ≤ _
    exact Nat.le_of_eq (by rw [Nat.zero_add, hfull.1])
  have hrun : threadRx.exec ([] ++ [.bytes bs]) = some _ :=
    Machine.exec_snoc.mpr ⟨_, rfl, threadRx_step_bytes hne hfit⟩
  refine ⟨_, hrun, fun hall => ?_⟩
  have hprog := hall _ List.prefix_rfl _ hrun
  rw [progress_threadRxCheck_iff (by rw [List.length_append]; exact hfit)] at hprog
  exact hprog.2 hfull

/-- A read of 255 bytes, the start byte and zeros, fills the buffer for good. -/
theorem full_read_ends_progress :
    ¬ ∀ results s, threadRx.exec results = some s → threadRx.Always Progress results := by
  intro hclaim
  have hfull : FullBadHead (0xAA :: 0x00 :: List.replicate 253 0x00) := by
    refine ⟨?_, rfl, ?_⟩
    · rw [List.length_cons, List.length_cons, List.length_replicate]
      rfl
    · exact (getDataHead_none_congr (a := [0xAA, 0x00]) rfl).mp rfl
  obtain ⟨s, hrun, hnot⟩ := not_always_progress_of_full (List.cons_ne_nil _ _) hfull
  exact hnot (hclaim _ s hrun)

end LearnGit.Proofs.Uart
