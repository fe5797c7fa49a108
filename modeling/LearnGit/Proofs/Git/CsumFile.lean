import LearnGit.Git.CsumFile
import LearnGit.Proofs.Git.Sha1

/-!
# `LearnGit.Proofs.Git.CsumFile`: a file and its hash

What is in the file at any time is a front part of what was written and its hash, however the calls
of `write` cut it, and a file that could be closed is all of it. `Streams` is the invariant of
`sha1write`: the file and the buffer together are what was written, and the context has been
given what is in the file. `Patient` answers lead to the end.
-/

set_option autoImplicit false

namespace LearnGit.Proofs.Git

open LearnGit.Git LearnGit.Lib LearnGit.Lib.SecureHash

/-! ### Answers that lead to the end -/

/-- No answer says that the disk is full or that there is an error. -/
def Patient (answers : List Answer) : Prop := ∀ a ∈ answers, a ≠ .wrote 0 ∧ a ≠ .failed

/-- How many answers take bytes. -/
def writes (answers : List Answer) : Nat := answers.countP fun a => a ≠ .again

/-- A flush, in front of `n` bytes that are still to come: what is in the file when it stops, and
which answers are left. -/
theorem sha1flush_spec (answers : List Answer) :
    ∀ (file : List UInt8) {buf : List UInt8}, buf ≠ [] →
      match sha1flush answers file buf with
      | .ok fd => fd.file = file ++ buf
          ∧ (Patient answers → Patient fd.answers)
          ∧ writes answers ≤ writes fd.answers + buf.length
      | .error (_, front) => front <+: file ++ buf
          ∧ ¬(Patient answers ∧ buf.length ≤ writes answers) := by
  induction answers with
  | nil =>
    intro file buf hbuf
    refine ⟨List.prefix_append _ _, ?_⟩
    rintro ⟨-, hle⟩
    exact hbuf (List.length_eq_zero_iff.mp (Nat.le_zero.mp hle))
  | cons a answers ih =>
    intro file buf hbuf
    cases a with
    | again =>
      have hpatient : Patient (.again :: answers) ↔ Patient answers := by simp [Patient]
      have hwrites : writes (.again :: answers) = writes answers := by simp [writes]
      rw [hpatient, hwrites, sha1flush]
      exact ih file hbuf
    | failed =>
      refine ⟨List.prefix_append _ _, ?_⟩
      rintro ⟨hpatient, -⟩
      exact (hpatient _ List.mem_cons_self).2 rfl
    | wrote ret =>
      have hwrites : writes (.wrote ret :: answers) = writes answers + 1 := by simp [writes]
      have hpatient : Patient (.wrote ret :: answers) → Patient answers :=
        fun h a ha => h a (List.mem_cons_of_mem _ ha)
      rw [sha1flush]
      by_cases hzero : ret = 0
      · rw [if_pos hzero]
        refine ⟨List.prefix_append _ _, ?_⟩
        rintro ⟨h, -⟩
        exact (h _ List.mem_cons_self).1 (congrArg Answer.wrote hzero)
      · have hlen : 1 ≤ buf.length := List.length_pos_iff.mpr hbuf
        rw [if_neg hzero, hwrites]
        by_cases hmore : buf.drop ret ≠ []
        · have hrest := ih (file ++ buf.take ret) hmore
          rw [List.append_assoc, List.take_append_drop, List.length_drop] at hrest
          rw [if_pos hmore]
          split
          · rename_i fd hfd
            rw [hfd] at hrest
            exact ⟨hrest.1, fun h => hrest.2.1 (hpatient h), by omega⟩
          · rename_i stop front hstop
            rw [hstop] at hrest
            exact ⟨hrest.1, fun h => hrest.2 ⟨hpatient h.1, by omega⟩⟩
        · rw [if_neg hmore]
          rw [Decidable.not_not, List.drop_eq_nil_iff] at hmore
          rw [List.take_of_length_le hmore]
          refine ⟨rfl, hpatient, ?_⟩
          show writes answers + 1 ≤ writes answers + buf.length
          omega

/-! ### Writing -/

/-- What has been written to a file that began with `start`: what is in the buffer has not been
hashed. The answers that are left suffice for what is not in the file, when those at the start
did. -/
structure Streams (start : List UInt8) (answers : List Answer) (f : Sha1file) (data : List UInt8) :
    Prop where
  data : ∃ hashed, data = hashed ++ f.buffer.take f.offset ∧ f.ctx = sha1Update sha1Init hashed
    ∧ f.fd.file = start ++ hashed ∧ writes answers ≤ writes f.fd.answers + hashed.length
  patient : Patient answers → Patient f.fd.answers

/-- What a run that has been given these bytes leaves, with `n` bytes to come. -/
def Stops (start : List UInt8) (answers : List Answer) (data : List UInt8) (front : List UInt8) :
    Prop :=
  front <+: start ++ data ∧ ¬(Patient answers ∧ data.length ≤ writes answers)

/-- Two texts one after the other are one. -/
theorem sha1Update_append (ctx : ShaCtx) (x y : List UInt8) :
    sha1Update (sha1Update ctx x) y = sha1Update ctx (x ++ y) :=
  List.foldl_append.symm

/-- A flush behind bytes that have been flushed. -/
theorem flush_streams {start : List UInt8} {answers : List Answer} {fd₀ : Fd}
    {hashed buf : List UInt8} (hbuf : buf ≠ []) (hfile : fd₀.file = start ++ hashed)
    (hwrites : writes answers ≤ writes fd₀.answers + hashed.length)
    (hpatient : Patient answers → Patient fd₀.answers) :
    match sha1flush fd₀.answers fd₀.file buf with
    | .ok fd => fd.file = start ++ (hashed ++ buf)
        ∧ writes answers ≤ writes fd.answers + (hashed ++ buf).length
        ∧ (Patient answers → Patient fd.answers)
    | .error (_, front) => Stops start answers (hashed ++ buf) front := by
  have hspec := sha1flush_spec fd₀.answers fd₀.file hbuf
  rw [hfile, List.append_assoc] at hspec
  rw [hfile, List.length_append]
  split
  · rename_i fd hfd
    rw [hfd] at hspec
    exact ⟨hspec.1, by omega, fun h => hspec.2.1 (hpatient h)⟩
  · rename_i stop front hstop
    rw [hstop] at hspec
    refine ⟨hspec.1, ?_⟩
    rintro ⟨h, hle⟩
    rw [List.length_append] at hle
    exact hspec.2 ⟨hpatient h, by omega⟩

/-- More data leaves where the answers stop. -/
theorem Stops.mono {start : List UInt8} {answers : List Answer} {data front : List UInt8}
    (h : Stops start answers data front) (more : List UInt8) :
    Stops start answers (data ++ more) front := by
  obtain ⟨hfront, hmany⟩ := h
  refine ⟨?_, ?_⟩
  · rw [← List.append_assoc]
    exact hfront.trans (List.prefix_append _ _)
  · rintro ⟨hpatient, hle⟩
    rw [List.length_append] at hle
    exact hmany ⟨hpatient, by omega⟩

/-- What is in the buffer behind a round. -/
theorem take_round (f : Sha1file) (buf : List UInt8) :
    (copyInto f.buffer f.offset (buf.take (roundSize f buf))).take (f.offset + roundSize f buf)
      = f.buffer.take f.offset ++ buf.take (roundSize f buf) := by
  have hle : roundSize f buf ≤ buf.length := by
    rw [roundSize]
    split <;> omega
  have htake := take_copyInto (roundSize_le f buf)
  rwa [List.length_take, Nat.min_eq_left hle] at htake

/-- `sha1write`, by induction on its rounds. -/
theorem sha1write_spec {start : List UInt8} {answers : List Answer} (f : Sha1file)
    (buf : List UInt8) : ∀ {data : List UInt8}, Streams start answers f data →
      match sha1write f buf with
      | .ok f' => Streams start answers f' (data ++ buf)
      | .error (_, front) => Stops start answers (data ++ buf) front := by
  induction f, buf using sha1write.induct with
  | case1 f =>
    intro data h
    rw [sha1write, dif_pos rfl, List.append_nil]
    exact h
  | case2 f buf hmore nr buffer hbuffer offset hfull stop =>
    rename_i hstop
    rintro _ ⟨⟨hashed, rfl, hctx, hfile, hwrites⟩, hpatient⟩
    have htake : buffer.take offset = f.buffer.take f.offset ++ buf.take nr := take_round f buf
    have hne : buffer.take offset ≠ [] := by
      rw [htake]
      simp [hmore, (roundSize_pos f hmore).ne', nr]
    have hflush := flush_streams hne hfile hwrites hpatient
    have hall : hashed ++ buffer.take offset ++ buf.drop nr
        = hashed ++ f.buffer.take f.offset ++ buf := by
      rw [htake, List.append_assoc, List.append_assoc, List.take_append_drop, List.append_assoc]
    have heq : sha1write f buf = .error stop := by
      rw [sha1write]
      simp only [dif_neg hmore, dif_pos hfull, nr, offset, buffer] at hstop ⊢
      rw [hstop]
    rw [hstop] at hflush
    rw [heq, ← hall]
    exact hflush.mono _
  | case3 f buf hmore nr buffer hbuffer offset hfull fd =>
    rename_i hfd ih
    rintro _ ⟨⟨hashed, rfl, hctx, hfile, hwrites⟩, hpatient⟩
    have htake : buffer.take offset = f.buffer.take f.offset ++ buf.take nr := take_round f buf
    have hne : buffer.take offset ≠ [] := by
      rw [htake]
      simp [hmore, (roundSize_pos f hmore).ne', nr]
    have hflush := flush_streams hne hfile hwrites hpatient
    have hall : hashed ++ buffer.take offset ++ buf.drop nr
        = hashed ++ f.buffer.take f.offset ++ buf := by
      rw [htake, List.append_assoc, List.append_assoc, List.take_append_drop, List.append_assoc]
    have heq : sha1write f buf = sha1write ⟨fd, 0, sha1Update f.ctx (buffer.take offset), buffer,
        hbuffer, Nat.succ_pos 8191⟩ (buf.drop nr) := by
      rw [sha1write]
      simp only [dif_neg hmore, dif_pos hfull, nr, offset, buffer] at hfd ⊢
      rw [hfd]
    rw [hfd] at hflush
    obtain ⟨hfile', hwrites', hpatient'⟩ := hflush
    rw [heq, ← hall]
    refine ih ⟨⟨hashed ++ buffer.take offset, ?_, ?_, hfile', hwrites'⟩, hpatient'⟩
    · rw [List.take_zero, List.append_nil]
    · rw [hctx, sha1Update_append]
  | case4 f buf hmore nr buffer hbuffer offset hfull =>
    rename_i ih
    rintro _ ⟨⟨hashed, rfl, hctx, hfile, hwrites⟩, hpatient⟩
    have htake : buffer.take offset = f.buffer.take f.offset ++ buf.take nr := take_round f buf
    have hall : hashed ++ buffer.take offset ++ buf.drop nr
        = hashed ++ f.buffer.take f.offset ++ buf := by
      rw [htake, List.append_assoc, List.append_assoc, List.take_append_drop, List.append_assoc]
    have hlt : offset < BUFFER := by
      simp only [offset]
      omega
    have heq : sha1write f buf
        = sha1write ⟨f.fd, offset, f.ctx, buffer, hbuffer, hlt⟩ (buf.drop nr) := by
      rw [sha1write]
      simp only [dif_neg hmore, dif_neg hfull, nr, offset, buffer]
    rw [heq, ← hall]
    exact ih ⟨⟨hashed, rfl, hctx, hfile, hwrites⟩, hpatient⟩

/-- At the start nothing was written. -/
theorem streams_start (start : List UInt8) (answers : List Answer) :
    Streams start answers (sha1fd start answers) [] where
  data := ⟨[], rfl, rfl, (List.append_nil _).symm, Nat.le_refl _⟩
  patient := id

/-- All writes, by induction on them. -/
theorem foldlM_sha1write (start : List UInt8) (answers : List Answer) (pieces : List (List UInt8)) :
    match pieces.foldlM sha1write (sha1fd start answers) with
    | .ok f => Streams start answers f pieces.flatten
    | .error (_, front) => Stops start answers pieces.flatten front := by
  induction pieces using List.reverseRecOn with
  | nil => exact streams_start start answers
  | append_singleton pieces piece ih =>
    rw [List.foldlM_append, List.flatten_append, List.flatten_singleton]
    cases hrun : pieces.foldlM sha1write (sha1fd start answers) with
    | error stop =>
      rw [hrun] at ih
      exact ih.mono _
    | ok f =>
      rw [hrun] at ih
      have hlast := sha1write_spec f piece ih
      show match List.foldlM sha1write f [piece] with
        | .ok f => Streams start answers f (pieces.flatten ++ piece)
        | .error (_, front) => Stops start answers (pieces.flatten ++ piece) front
      rw [List.foldlM_cons]
      cases hwrite : sha1write f piece with
      | error stop =>
        rw [hwrite] at hlast
        exact hlast
      | ok f' =>
        rw [hwrite] at hlast
        exact hlast

/-! ### Closing -/

/-- What is left in the buffer. -/
theorem sha1closeFlush_spec {start : List UInt8} {answers : List Answer} {f : Sha1file}
    {data : List UInt8} (h : Streams start answers f data) :
    match sha1closeFlush f with
    | .ok (ctx, fd) => ctx = sha1Update sha1Init data ∧ fd.file = start ++ data
        ∧ writes answers ≤ writes fd.answers + data.length ∧ (Patient answers → Patient fd.answers)
    | .error (_, front) => Stops start answers data front := by
  obtain ⟨⟨hashed, rfl, hctx, hfile, hwrites⟩, hpatient⟩ := h
  rw [sha1closeFlush]
  by_cases hoffset : f.offset ≠ 0
  · have hne : f.buffer.take f.offset ≠ [] := by
      have hlen := f.buffer_length
      rw [Ne, List.take_eq_nil_iff]
      rintro (hzero | hnil)
      · exact hoffset hzero
      · rw [hnil] at hlen
        exact absurd hlen (by decide)
    have hflush := flush_streams hne hfile hwrites hpatient
    rw [if_pos hoffset]
    cases hrun : sha1flush f.fd.answers f.fd.file (f.buffer.take f.offset) with
    | error stop =>
      rw [hrun] at hflush
      exact hflush
    | ok fd =>
      rw [hrun] at hflush
      refine ⟨?_, hflush⟩
      rw [hctx, sha1Update_append]
  · have hzero : f.offset = 0 := Decidable.not_not.mp hoffset
    rw [if_neg hoffset, hzero, List.take_zero, List.append_nil]
    exact ⟨hctx, hfile, hwrites, hpatient⟩

/-- A file that is written in pieces and closed has their bytes and their hash behind what was in
it, and `result` is the hash. A run that stops has left a front part of that, and it does so only
if an answer is an error, the disk is full, too few bytes are taken or `close` fails. -/
theorem sha1file_streams (start : List UInt8) (answers : List Answer)
    (pieces : List (List UInt8)) (closes : Bool) :
    match (pieces.foldlM sha1write (sha1fd start answers)).bind (sha1close · true closes) with
    | .ok (result, file) => result = (sha1 pieces.flatten).toList
        ∧ file = start ++ pieces.flatten ++ (sha1 pieces.flatten).toList
    | .error (_, front) => front <+: start ++ pieces.flatten ++ (sha1 pieces.flatten).toList
        ∧ ¬(Patient answers ∧ pieces.flatten.length + 20 ≤ writes answers ∧ closes = true) := by
  have hrun := foldlM_sha1write start answers pieces
  generalize pieces.flatten = data at hrun ⊢
  have hlen : (sha1 data).toList.length = 20 := Vector.length_toList
  have hstops : ∀ {front}, Stops start answers data front →
      front <+: start ++ data ++ (sha1 data).toList
        ∧ ¬(Patient answers ∧ data.length + 20 ≤ writes answers ∧ closes = true) := by
    rintro front ⟨hfront, hmany⟩
    refine ⟨hfront.trans (List.prefix_append _ _), ?_⟩
    rintro ⟨hpatient, hle, -⟩
    exact hmany ⟨hpatient, by omega⟩
  cases hwrites : pieces.foldlM sha1write (sha1fd start answers) with
  | error stop =>
    rw [hwrites] at hrun
    exact hstops hrun
  | ok f =>
    rw [hwrites] at hrun
    have hclose := sha1closeFlush_spec hrun
    rw [Except.bind, sha1close]
    cases hflush : sha1closeFlush f with
    | error stop =>
      rw [hflush] at hclose
      exact hstops hclose
    | ok hashed =>
      obtain ⟨ctx, fd⟩ := hashed
      rw [hflush] at hclose
      obtain ⟨rfl, hfile, hmany, hpatient⟩ := hclose
      have hfinal := sha1Final_eq (holds_update holds_init data)
      have hne : (sha1 data).toList ≠ [] := by
        rw [← List.length_pos_iff, hlen]
        decide
      have hend := flush_streams hne hfile hmany hpatient
      rw [List.nil_append] at hfinal
      simp only [hfinal, if_pos]
      cases hlast : sha1flush fd.answers fd.file (sha1 data).toList with
      | error stop =>
        rw [hlast] at hend
        obtain ⟨hfront, hstop⟩ := hend
        refine ⟨by rwa [List.append_assoc], ?_⟩
        rintro ⟨hp, hle, -⟩
        exact hstop ⟨hp, by rw [List.length_append]; omega⟩
      | ok fd' =>
        rw [hlast] at hend
        obtain ⟨hfile', -, -⟩ := hend
        rw [← List.append_assoc] at hfile'
        cases closes with
        | true => exact ⟨rfl, hfile'⟩
        | false =>
          refine ⟨?_, fun h => absurd h.2.2 (by decide)⟩
          rw [← hfile']

end LearnGit.Proofs.Git
