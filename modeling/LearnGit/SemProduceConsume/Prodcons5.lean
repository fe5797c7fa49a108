import LearnGit.Lib.Machine
import Mathlib.Logic.Function.Basic

/-!
# `LearnGit.SemProduceConsume.Prodcons5`: a copy by two threads through a ring of blocks

`unpv/sem_produce_consume/prodcons5.c`: `produce` reads a file into the blocks of a ring and
`consume` writes them to the standard output. The threads wait for each other with the
semaphores `nempty` and `nstored`, and compare `read_place` with `write_place` on top of that.

The state has a place in the program for each thread. A round of `produce`, from taking the
mutex to the update of `write_place`, is one step, and so is the critical section of `consume`.
A `read` returns at least a byte until the end of the file and any number of them up to
`BUFFSIZE`; `write` writes all it is given, and no call fails. The text that `printf` writes is
left out.
-/

set_option autoImplicit false

namespace LearnGit.SemProduceConsume.Prodcons5

open LearnGit.Lib

abbrev Byte := UInt8

def NBUFF : Nat := 10

/-- `myinclude/unp.h`, which the Makefile puts on the include path. -/
def BUFFSIZE : Nat := 56

/-- Where `produce` is. -/
inductive ProducerAt where
  /-- At the condition of the loop. -/
  | loop
  /-- At `sem_wait(&shared.nempty)`. -/
  | waitEmpty
  /-- Before `sem_wait(&shared.mutex)`. -/
  | round
  | returned
  deriving DecidableEq, Repr

/-- Where `consume` is. -/
inductive ConsumerAt where
  /-- At `!stoped`, in the condition of the loop. -/
  | loop
  /-- At the last part of the condition, which reads the length of a block. -/
  | loopBlock
  /-- At `sem_wait(&shared.nstored)`. -/
  | waitStored
  /-- Before `sem_wait(&shared.mutex)`. -/
  | critical
  /-- At `sem_post(&shared.nempty)`. -/
  | postEmpty
  | returned
  deriving DecidableEq, Repr

/-- The program. A block of `buff` is its first `n` bytes. -/
structure State where
  /-- What was not read of the file yet. -/
  rest : List Byte
  buff : Nat → List Byte
  readPlace : Nat
  writePlace : Nat
  nempty : Nat
  nstored : Nat
  stoped : Bool
  producer : ProducerAt
  consumer : ConsumerAt
  /-- What was written to the standard output. -/
  out : List Byte
  /-- Whether a `read` has returned 0. -/
  readEof : Bool

/-- The state after `main` has started the threads. The first round of `consume` does not look
at `stoped`. -/
def start (file : List Byte) : State where
  rest := file
  buff := fun _ => []
  readPlace := 0
  writePlace := 0
  nempty := NBUFF
  nstored := 0
  stoped := false
  producer := .loop
  consumer := .waitStored
  out := []
  readEof := false

/-- `getArrPre`, for numbers that are not negative. -/
def getArrPre (now arrCount : Nat) : Nat := if now = 0 then arrCount - 1 else now - 1

/-- `read(fd, shared.buff[shared.write_place].data, BUFFSIZE)`, which returns at most `most + 1`
bytes. -/
def readBlock (s : State) (most : Nat) : State :=
  let n := min BUFFSIZE (most + 1)
  { s with
    buff := Function.update s.buff s.writePlace (s.rest.take n)
    rest := s.rest.drop n
    readEof := s.readEof || s.rest.isEmpty }

/-- The ring is full for `produce`. -/
def Full (s : State) : Prop := (s.writePlace + 1) % NBUFF = s.readPlace

instance (s : State) : Decidable (Full s) := inferInstanceAs (Decidable (_ = _))

/-- A round of `produce`. -/
def produceRound (s : State) (most : Nat) : State :=
  let s := if ¬Full s then readBlock s most else s
  let s := { s with nstored := s.nstored + 1 }
  let writePlace := (s.writePlace + 1) % NBUFF
  if (s.buff s.writePlace).length = 0 then
    { s with stoped := true, writePlace, producer := .returned }
  else { s with writePlace, producer := .loop }

/-- The next step of `produce`. -/
def produce (s : State) (most : Nat) : Option State :=
  match s.producer with
  | .loop => some { s with producer := if s.stoped then .returned else .waitEmpty }
  | .waitEmpty =>
    if s.nempty = 0 then none
    else some { s with nempty := s.nempty - 1, producer := .round }
  | .round => some (produceRound s most)
  | .returned => none

/-- The critical section of `consume`. -/
def consumeCritical (s : State) : State :=
  let block := s.buff s.readPlace
  if s.readPlace ≠ s.writePlace ∧ block.length ≠ 0 then
    { s with out := s.out ++ block, readPlace := (s.readPlace + 1) % NBUFF }
  else s

/-- The next step of `consume`. -/
def consume (s : State) : Option State :=
  match s.consumer with
  | .loop => some { s with consumer := if s.stoped then .loopBlock else .waitStored }
  | .loopBlock =>
    let block := s.buff (getArrPre s.readPlace NBUFF)
    some { s with consumer := if block.length ≠ 0 then .waitStored else .returned }
  | .waitStored =>
    if s.nstored = 0 then none
    else some { s with nstored := s.nstored - 1, consumer := .critical }
  | .critical => some { consumeCritical s with consumer := .postEmpty }
  | .postEmpty => some { s with nempty := s.nempty + 1, consumer := .loop }
  | .returned => none

/-- Which thread goes on, or `SIGINT`. -/
inductive Event where
  | produce (most : Nat)
  | consume
  | intProc
  deriving DecidableEq, Repr

def step (s : State) : Event → Option State
  | .produce most => produce s most
  | .consume => consume s
  | .intProc => some { s with stoped := true }

/-- The program, started with a file of this content. -/
def program (file : List Byte) : Machine State Event where
  init := start file
  step := step

end LearnGit.SemProduceConsume.Prodcons5
