import LearnGit.Lib.Ring
import LearnGit.SemProduceConsume.Prodcons5

/-!
# `LearnGit.Proofs.SemProduceConsume.Prodcons5`: what the copy by two threads loses

A round of `produce` that finds the ring full skips the `read`, but counts a block as stored and
moves `write_place` on. `copy_safe`: in the runs without such a round, the output is always the
front of the file, and all of it once the end of the file was read and `nstored` is 0.

`Copying` is the invariant. The ring holds the blocks between the output and the rest of the
file, and a last empty one after the end of the file. `nstored`, with the count that `consume`
has taken in its critical section, is the number of these blocks, until `consume` has found the
empty one: it stays in the ring.
-/

set_option autoImplicit false

namespace LearnGit.Proofs.SemProduceConsume.Prodcons5

open LearnGit.Lib
open LearnGit.SemProduceConsume.Prodcons5

/-! ### Statement -/

/-- The output is the front of the file, and all of it when `produce` has returned after the end
of the file and nothing is stored. -/
structure Safe (file : List Byte) (s : State) : Prop where
  prefix_file : s.out <+: file
  whole : s.producer = .returned → s.readEof = true → s.nstored = 0 → s.out = file

/-- No round of `produce` starts with a full ring. -/
def NotFull (s : State) : Event → Prop
  | .produce _ => s.producer = .round → ¬Full s
  | _ => True

instance (s : State) : (e : Event) → Decidable (NotFull s e)
  | .produce _ => inferInstanceAs (Decidable (s.producer = .round → ¬Full s))
  | .consume => isTrue trivial
  | .intProc => isTrue trivial

/-! ### The invariant -/

/-- The blocks that are stored, and one that `consume` is about to take. -/
def tokens (s : State) : Nat := s.nstored + if s.consumer = .critical then 1 else 0

/-- The empty block that stands for the end of the file. -/
def eofBlocks (s : State) : List (List Byte) := if s.readEof then [[]] else []

/-- The ring holds these blocks of the file, and those are between the output and the rest. -/
structure Holding (file : List Byte) (s : State) (blocks : List (List Byte)) : Prop where
  ring : Ring NBUFF s.buff s.readPlace s.writePlace (blocks ++ eofBlocks s)
  nonempty : ∀ b ∈ blocks, b ≠ []
  copy : s.out ++ blocks.flatten ++ s.rest = file
  counted : tokens s = (blocks ++ eofBlocks s).length ∨
    (s.readEof = true ∧ blocks = [] ∧ tokens s = 0)
  eof : s.readEof = true → s.rest = [] ∧ s.producer = .returned

/-- The invariant. -/
def Copying (file : List Byte) (s : State) : Prop := ∃ blocks, Holding file s blocks

/-- At the start nothing was copied. -/
theorem copying_start (file : List Byte) : Copying file (start file) :=
  ⟨[], Ring.nil (Nat.succ_pos 9), by simp, by simp [start], Or.inl rfl, by simp [start]⟩

/-- What the invariant says about the output. -/
theorem Copying.safe {file : List Byte} {s : State} (h : Copying file s) : Safe file s := by
  obtain ⟨blocks, hring, hnonempty, hcopy, hcounted, heof⟩ := h
  constructor
  · refine ⟨blocks.flatten ++ s.rest, ?_⟩
    rw [← List.append_assoc]
    exact hcopy
  · intro _ hread hstored
    -- At most one count is left, and it is the one of the empty block.
    have hblocks : blocks = [] := by
      rcases hcounted with hcounted | ⟨-, hblocks, -⟩
      · simp only [tokens, eofBlocks, hread, hstored, if_true, List.length_append,
          List.length_singleton] at hcounted
        rw [← List.length_eq_zero_iff]
        split at hcounted
        · omega
        · omega
      · exact hblocks
    rw [hblocks, (heof hread).1] at hcopy
    simpa using hcopy

/-! ### Steps -/

/-- A step that moves no block. -/
structure Frame (s s' : State) : Prop where
  rest : s'.rest = s.rest
  buff : s'.buff = s.buff
  readPlace : s'.readPlace = s.readPlace
  writePlace : s'.writePlace = s.writePlace
  out : s'.out = s.out
  readEof : s'.readEof = s.readEof
  tokens : tokens s' = tokens s
  returned : s.producer = .returned → s'.producer = .returned

/-- A step that leaves the data keeps the copy right. -/
theorem Copying.frame {file : List Byte} {s s' : State} (h : Copying file s) (hf : Frame s s') :
    Copying file s' := by
  obtain ⟨blocks, hring, hnonempty, hcopy, hcounted, heof⟩ := h
  have hblocks : eofBlocks s' = eofBlocks s := by
    rw [eofBlocks, eofBlocks, hf.readEof]
  refine ⟨blocks, ?_, hnonempty, ?_, ?_, ?_⟩
  · rw [hf.buff, hf.readPlace, hf.writePlace, hblocks]
    exact hring
  · rw [hf.out, hf.rest]
    exact hcopy
  · rw [hf.tokens, hf.readEof, hblocks]
    exact hcounted
  · rw [hf.readEof, hf.rest]
    intro hread
    obtain ⟨hrest, hreturned⟩ := heof hread
    exact ⟨hrest, hf.returned hreturned⟩

/-- What a step can do. -/
theorem step_cases {s s' : State} {e : Event} (h : step s e = some s') :
    Frame s s' ∨
    (∃ most, e = .produce most ∧ s.producer = .round ∧ s' = produceRound s most) ∨
    (s.consumer = .critical ∧ s' = { consumeCritical s with consumer := .postEmpty }) := by
  cases e with
  | produce most =>
    change produce s most = some s' at h
    cases hat : s.producer with
    | loop =>
      simp only [produce, hat, Option.some.injEq] at h
      subst h
      left
      exact ⟨rfl, rfl, rfl, rfl, rfl, rfl, rfl, fun h => nomatch hat.symm.trans h⟩
    | waitEmpty =>
      simp only [produce, hat, Option.ite_none_left_eq_some, Option.some.injEq] at h
      obtain ⟨-, rfl⟩ := h
      left
      exact ⟨rfl, rfl, rfl, rfl, rfl, rfl, rfl, fun h => nomatch hat.symm.trans h⟩
    | round =>
      simp only [produce, hat, Option.some.injEq] at h
      exact Or.inr (Or.inl ⟨most, rfl, rfl, h.symm⟩)
    | returned =>
      simp only [produce, hat] at h
      exact nomatch h
  | consume =>
    change consume s = some s' at h
    cases hat : s.consumer with
    | loop =>
      simp only [consume, hat, Option.some.injEq] at h
      subst h
      left
      refine ⟨rfl, rfl, rfl, rfl, rfl, rfl, ?_, id⟩
      simp only [tokens, hat]
      split <;> rfl
    | loopBlock =>
      simp only [consume, hat, Option.some.injEq] at h
      subst h
      left
      refine ⟨rfl, rfl, rfl, rfl, rfl, rfl, ?_, id⟩
      simp only [tokens, hat]
      split <;> rfl
    | waitStored =>
      simp only [consume, hat, Option.ite_none_left_eq_some, Option.some.injEq] at h
      obtain ⟨hpos, rfl⟩ := h
      left
      refine ⟨rfl, rfl, rfl, rfl, rfl, rfl, ?_, id⟩
      simp only [tokens, hat, if_true, reduceCtorEq, if_false]
      omega
    | critical =>
      simp only [consume, hat, Option.some.injEq] at h
      exact Or.inr (Or.inr ⟨rfl, h.symm⟩)
    | postEmpty =>
      simp only [consume, hat, Option.some.injEq] at h
      subst h
      left
      exact ⟨rfl, rfl, rfl, rfl, rfl, rfl, by simp [tokens, hat], id⟩
    | returned =>
      simp only [consume, hat] at h
      exact nomatch h
  | intProc =>
    have hs := Option.some.inj h
    subst hs
    left
    exact ⟨rfl, rfl, rfl, rfl, rfl, rfl, rfl, id⟩

/-- With room and something to read the producer stores a block. -/
theorem produceRound_of_rest {s : State} (hfull : ¬Full s) (hrest : s.rest ≠ []) (most : Nat) :
    produceRound s most = { readBlock s most with
      nstored := s.nstored + 1, writePlace := (s.writePlace + 1) % NBUFF, producer := .loop } := by
  obtain ⟨n, hn⟩ : ∃ n, min BUFFSIZE (most + 1) = n + 1 :=
    ⟨min BUFFSIZE (most + 1) - 1, by rw [BUFFSIZE]; omega⟩
  simp [produceRound, hfull, readBlock, hn, hrest]

/-- A stored block is one token more. -/
theorem tokens_stored {s s' : State} (hstored : s'.nstored = s.nstored + 1)
    (hconsumer : s'.consumer = s.consumer) : tokens s' = tokens s + 1 := by
  rw [tokens, tokens, hstored, hconsumer, Nat.add_right_comm]

/-- A round that reads stores what it has read. -/
theorem Copying.after_round {file : List Byte} {s : State} (h : Copying file s)
    (hat : s.producer = .round) (hfull : ¬Full s) (most : Nat) :
    Copying file (produceRound s most) := by
  obtain ⟨blocks, hring, hnonempty, hcopy, hcounted, heof⟩ := h
  -- Behind the end of the file `produce` has returned, so it was not reached yet.
  have hread : s.readEof = false := by
    cases hread : s.readEof with
    | false => rfl
    | true => exact nomatch hat.symm.trans (heof hread).2
  have hnone : eofBlocks s = [] := by
    rw [eofBlocks, hread]
    rfl
  rw [hnone, List.append_nil] at hring hcounted
  have hlen : tokens s = blocks.length := by
    rcases hcounted with hcounted | ⟨htrue, -⟩
    · exact hcounted
    · exact nomatch hread.symm.trans htrue
  have hfree : blocks.length + 1 < NBUFF := by
    have hroom := hring.room
    have hne : blocks.length + 1 ≠ NBUFF := fun heq => hfull (hring.full_iff.mpr heq)
    omega
  obtain ⟨n, hn⟩ : ∃ n, min BUFFSIZE (most + 1) = n + 1 :=
    ⟨min BUFFSIZE (most + 1) - 1, by rw [BUFFSIZE]; omega⟩
  have hpush := hring.push hfree (s.rest.take (n + 1))
  by_cases hrest : s.rest = []
  · -- The `read` returns 0: an empty block is stored, and `produce` returns.
    have hround : produceRound s most = { readBlock s most with
        nstored := s.nstored + 1, stoped := true, writePlace := (s.writePlace + 1) % NBUFF,
        producer := .returned } := by
      simp [produceRound, hfull, readBlock, hrest]
    rw [hround]
    refine ⟨blocks, ?_, hnonempty, ?_, Or.inl ?_, ?_⟩
    · simpa [readBlock, hn, hrest, eofBlocks] using hpush
    · simpa [readBlock, hrest] using hcopy
    · refine Eq.trans (b := tokens s + 1) (tokens_stored rfl rfl) ?_
      rw [hlen]
      simp [eofBlocks, readBlock, hrest]
    · simp [readBlock, hrest]
  · rw [produceRound_of_rest hfull hrest]
    have hread' : (readBlock s most).readEof = false := by
      simp [readBlock, hread, hrest]
    refine ⟨blocks ++ [s.rest.take (n + 1)], ?_, ?_, ?_, Or.inl ?_, ?_⟩
    · simpa [readBlock, hn, hrest, hread, eofBlocks] using hpush
    · intro b hb
      rcases List.mem_append.mp hb with hb | hb
      · exact hnonempty b hb
      · rw [List.mem_singleton.mp hb]
        simpa using hrest
    · simpa [readBlock, hn] using hcopy
    · refine Eq.trans (b := tokens s + 1) (tokens_stored rfl rfl) ?_
      rw [hlen]
      simp [eofBlocks, hread']
    · intro htrue
      exact nomatch hread'.symm.trans htrue

/-- The critical section takes a block out of the ring and writes it, unless it is the empty
one. -/
theorem Copying.after_critical {file : List Byte} {s : State} (h : Copying file s)
    (hat : s.consumer = .critical) :
    Copying file { consumeCritical s with consumer := .postEmpty } := by
  obtain ⟨blocks, hring, hnonempty, hcopy, hcounted, heof⟩ := h
  have htokens : tokens s = s.nstored + 1 := by
    rw [tokens, hat]
    rfl
  have hcounted : s.nstored + 1 = (blocks ++ eofBlocks s).length := by
    omega
  have hne : s.readPlace ≠ s.writePlace := by
    rw [Ne, hring.eq_iff]
    intro hnil
    rw [hnil] at hcounted
    exact nomatch hcounted
  cases blocks with
  | nil =>
    -- The count belongs to the empty block, which stays in the ring.
    have hread : s.readEof = true := by
      cases hread : s.readEof with
      | true => rfl
      | false => simp [eofBlocks, hread] at hcounted
    have hblocks : [] ++ eofBlocks s = [[]] := by
      rw [eofBlocks, hread]
      rfl
    have hempty : s.buff s.readPlace = [] := by
      rw [hblocks] at hring
      exact hring.front
    have hsame : consumeCritical s = s := by
      simp [consumeCritical, hempty]
    rw [hsame]
    refine ⟨[], hring, hnonempty, hcopy, Or.inr ⟨hread, rfl, ?_⟩, heof⟩
    rw [hblocks, List.length_singleton] at hcounted
    simp only [tokens, reduceCtorEq, if_false]
    omega
  | cons b blocks =>
    have hfront : s.buff s.readPlace = b := hring.front
    have hb : b ≠ [] := hnonempty b List.mem_cons_self
    have hpop : consumeCritical s
        = { s with out := s.out ++ b, readPlace := (s.readPlace + 1) % NBUFF } := by
      simp [consumeCritical, hfront, hne, hb]
    rw [hpop]
    refine ⟨blocks, hring.pop, fun b hb => hnonempty b (List.mem_cons_of_mem _ hb), ?_,
      Or.inl ?_, heof⟩
    · simpa using hcopy
    · rw [List.cons_append, List.length_cons] at hcounted
      simp only [tokens, reduceCtorEq, if_false]
      exact Nat.succ.inj hcounted

/-- Every step without a full ring keeps the invariant. -/
theorem Copying.after_step {file : List Byte} {s s' : State} {e : Event} (h : Copying file s)
    (hok : NotFull s e) (hs : step s e = some s') : Copying file s' := by
  rcases step_cases hs with hframe | ⟨most, rfl, hat, rfl⟩ | ⟨hat, rfl⟩
  · exact h.frame hframe
  · exact h.after_round hat (hok hat) most
  · exact h.after_critical hat

/-- In every run without a full ring the output is right. -/
theorem copy_safe (file : List Byte) {es : List Event} {s : State}
    (hrun : (program file).Run NotFull es s) : Safe file s := by
  have hcopying : Copying file s :=
    hrun.invariant (copying_start file) fun _ _ _ hok h hs => h.after_step hok hs
  exact hcopying.safe

/-- A file of one byte is copied whole when `consume` runs last. -/
theorem copy_safe_byte : ∃ s, (program [7]).Run NotFull (List.replicate 6 (.produce 0) ++
    List.replicate 6 .consume) s ∧ s.nstored = 0 ∧ s.out = [7] := by
  have hrun : (program [7]).Run NotFull (List.replicate 6 (.produce 0) ++
      List.replicate 6 .consume) _ := Machine.Run.of_execOk rfl
  exact ⟨_, hrun, rfl, (copy_safe [7] hrun).whole rfl rfl rfl⟩

/-! ### A full ring -/

/-- A round of `produce`, with a block as long as there is. -/
def wholeRound : List Event := List.replicate 3 (.produce BUFFSIZE)

/-- A round of `consume`. -/
def consumeRound : List Event := List.replicate 4 .consume

section Rounds

variable {s : State} {file block : List Byte} {n : Nat}

/-- A whole round of the producer stores one block. -/
theorem exec_wholeRound (hat : s.producer = .loop) (hstoped : s.stoped = false)
    (hempty : s.nempty = n + 1) (hfull : ¬Full s) (hrest : s.rest ≠ []) :
    (program file).execFrom s wholeRound
      = some { s with
          nempty := n
          buff := Function.update s.buff s.writePlace (s.rest.take BUFFSIZE)
          rest := s.rest.drop BUFFSIZE
          nstored := s.nstored + 1
          writePlace := (s.writePlace + 1) % NBUFF } := by
  have hsteps : (program file).execFrom s wholeRound
      = some (produceRound { s with nempty := n, producer := .round } BUFFSIZE) := by
    simp [wholeRound, List.replicate_succ, program, step, produce, hat, hstoped, hempty]
  have hfull' : ¬Full { s with nempty := n, producer := .round } := hfull
  rw [hsteps, produceRound_of_rest hfull' hrest]
  simp [readBlock, hat, hrest]

/-- A round that finds the ring full and an old block at its end. -/
theorem exec_fullRound (hat : s.producer = .loop) (hstoped : s.stoped = false)
    (hempty : s.nempty = n + 1) (hfull : Full s) (hold : s.buff s.writePlace ≠ []) :
    (program file).execFrom s wholeRound
      = some { s with
          nempty := n
          nstored := s.nstored + 1
          writePlace := (s.writePlace + 1) % NBUFF } := by
  have hsteps : (program file).execFrom s wholeRound
      = some (produceRound { s with nempty := n, producer := .round } BUFFSIZE) := by
    simp [wholeRound, List.replicate_succ, program, step, produce, hat, hstoped, hempty]
  have hfull' : Full { s with nempty := n, producer := .round } := hfull
  rw [hsteps, produceRound]
  simp [hfull', hold, hat]

/-- A whole round of the consumer writes one block. -/
theorem exec_consumeRound (hat : s.consumer = .waitStored) (hstoped : s.stoped = false)
    (hstored : s.nstored = n + 1) (hplace : s.readPlace ≠ s.writePlace)
    (hblock : s.buff s.readPlace ≠ []) :
    (program file).execFrom s consumeRound
      = some { s with
          nstored := n
          nempty := s.nempty + 1
          out := s.out ++ s.buff s.readPlace
          readPlace := (s.readPlace + 1) % NBUFF } := by
  simp [consumeRound, List.replicate_succ, program, step, consume, hat, hstored, consumeCritical,
    hplace, hblock, hstoped]

/-- A round of `consume` that takes the ring for empty. -/
theorem exec_consumeRound_of_eq (hat : s.consumer = .waitStored) (hstoped : s.stoped = false)
    (hstored : s.nstored = n + 1) (hplace : s.readPlace = s.writePlace) :
    (program file).execFrom s consumeRound
      = some { s with nstored := n, nempty := s.nempty + 1 } := by
  simp [consumeRound, List.replicate_succ, program, step, consume, hat, hstored, consumeCritical,
    hplace, hstoped]

/-- The state after `k` rounds of `produce` with this block and none of `consume`. -/
def lapState (block : List Byte) (k : Nat) (rest : List Byte) : State :=
  { start rest with
    buff := fun i => if i < k then block else []
    writePlace := k
    nempty := NBUFF - k
    nstored := k }

/-- A whole block is not empty. -/
theorem ne_nil_of_whole (hlen : block.length = BUFFSIZE) : block ≠ [] := by
  intro hnil
  rw [hnil] at hlen
  exact nomatch hlen

/-- Rounds of `produce` while `consume` waits. -/
theorem exec_rounds (hlen : block.length = BUFFSIZE) {k : Nat} (hk : k < NBUFF) :
    ∀ rest, (program file).execFrom (start ((List.replicate k block).flatten ++ rest))
        (List.replicate k wholeRound).flatten = some (lapState block k rest) := by
  induction k with
  | zero =>
    intro rest
    rfl
  | succ k ih =>
    intro rest
    have hempty : (lapState block k (block ++ rest)).nempty = NBUFF - (k + 1) + 1 := by
      show NBUFF - k = _
      omega
    have hfull : ¬Full (lapState block k (block ++ rest)) := by
      show ¬(k + 1) % NBUFF = 0
      rw [Nat.mod_eq_of_lt hk]
      omega
    have hrest : (lapState block k (block ++ rest)).rest ≠ [] :=
      fun h => ne_nil_of_whole hlen (List.append_eq_nil_iff.mp h).1
    have hbuff : Function.update (fun i => if i < k then block else []) k block
        = fun i => if i < k + 1 then block else [] := by
      funext i
      by_cases hi : i = k
      · subst hi
        rw [Function.update_self, if_pos (Nat.lt_succ_self i)]
      · rw [Function.update_of_ne hi]
        simp only [show i < k + 1 ↔ i < k by omega]
    rw [List.replicate_succ', List.replicate_succ', List.flatten_append, List.flatten_append,
      List.append_assoc, List.flatten_singleton, List.flatten_singleton, Machine.execFrom_append,
      ih (by omega), Option.bind_some, exec_wholeRound rfl rfl hempty hfull hrest]
    simp only [lapState, start, List.take_left' hlen, List.drop_left' hlen, hbuff,
      Nat.mod_eq_of_lt hk]

/-- After nine rounds `consume` writes a block. The next round fills the ring, and the one after
it skips its `read`. The places are equal then, and `consume` takes the ring for empty. -/
def lapEvents : List Event :=
  (List.replicate 9 wholeRound).flatten ++ (consumeRound ++ (wholeRound ++ (wholeRound ++
    (consumeRound ++ (wholeRound ++ consumeRound)))))

/-- The last block of the file is written after the first. -/
theorem exec_lapEvents (hlen : block.length = BUFFSIZE) :
    ((program ((List.replicate 10 block).flatten ++ [1])).exec lapEvents).map State.out
      = some (block ++ [1]) := by
  have hne : block ≠ [] := ne_nil_of_whole hlen
  have hfile : (List.replicate 10 block).flatten ++ [1]
      = (List.replicate 9 block).flatten ++ (block ++ [1]) := by
    rw [List.replicate_succ', List.flatten_append, List.append_assoc, List.flatten_singleton]
  rw [Machine.exec, lapEvents, Machine.execFrom_append]
  show Option.map _ (Option.bind ((program _).execFrom (start _) _) _) = _
  -- Nine rounds fill nine places, and each further round is executed in turn.
  rw [hfile, exec_rounds hlen (by decide), Option.bind_some]
  rw [Machine.execFrom_append, exec_consumeRound (n := 8) rfl rfl rfl
    (by simp [lapState, start]) (by simpa [lapState, start] using hne), Option.bind_some]
  rw [Machine.execFrom_append, exec_wholeRound (n := 1) rfl rfl rfl
    (by simp [lapState, start, Full, NBUFF]) (by simp [lapState, start]), Option.bind_some]
  rw [Machine.execFrom_append, exec_fullRound (n := 0) rfl rfl rfl
    (by simp [lapState, start, Full, NBUFF]) (by simpa [lapState, start, NBUFF] using hne),
    Option.bind_some]
  rw [Machine.execFrom_append, exec_consumeRound_of_eq (n := 9) rfl rfl rfl
    (by simp [lapState, start, NBUFF]), Option.bind_some]
  simp only [lapState, start, List.drop_left' hlen, NBUFF]
  rw [Machine.execFrom_append, exec_wholeRound (n := 0) rfl rfl rfl
    (by simp [Full, NBUFF]) (List.cons_ne_nil _ _), Option.bind_some]
  rw [exec_consumeRound (n := 9) rfl rfl rfl (by simp [NBUFF]) (by simp [BUFFSIZE])]
  simp [BUFFSIZE]

end Rounds

/-- Ten blocks of zeros and a one: the one is written after the first block. -/
theorem full_ring_loses :
    ∃ s, (program ((List.replicate 10 (List.replicate BUFFSIZE 0)).flatten ++ [1])).exec lapEvents
        = some s ∧
      ¬Safe ((List.replicate 10 (List.replicate BUFFSIZE 0)).flatten ++ [1]) s := by
  obtain ⟨s, hexec, hout⟩ := Option.map_eq_some_iff.mp
    (@exec_lapEvents (List.replicate BUFFSIZE 0) List.length_replicate)
  refine ⟨s, hexec, ?_⟩
  intro hsafe
  have hfront := hsafe.prefix_file
  rw [hout, List.replicate_succ, List.flatten_cons, List.append_assoc,
    List.prefix_append_right_inj, List.replicate_succ, List.flatten_cons,
    List.append_assoc] at hfront
  exact absurd (List.cons_prefix_cons.mp hfront).1 (by decide)

end LearnGit.Proofs.SemProduceConsume.Prodcons5
