/-
The pipe of `kernel/pipe.c`, at the granularity of lock operations: a step of a
process runs from one acquisition or release of a lock to the next.
-/
import EAFITos.RingBuffer
import EAFITos.Transition
import EAFITos.Proc

namespace EAFITos

open Option Function List

def PIPESIZE : Nat := 512

/-- The channels a process sleeps on: `&pi->nread` and `&pi->nwrite`. -/
inductive PipeChan where
  | nread
  | nwrite
  deriving DecidableEq, Repr

/-- A call with its arguments; a write also has the number of bytes it has appended
when it goes on after a sleep. -/
inductive PipeCall where
  | write (n : Int) (i : Nat)
  | read (n : Int)
  | close (writable : Bool)
  deriving DecidableEq, Repr

/-- What a call does once it has woken the sleepers. -/
inductive AfterWakeup where
  | sleep (chan : PipeChan) (call : PipeCall)
  | unlock (r : Int)
  | closeUnlock
  deriving DecidableEq, Repr

/-- Where a process stands in a call on the pipe. -/
inductive PipePc where
  | returned (r : Int)
  /-- About to acquire `pi->lock`. -/
  | enter (call : PipeCall)
  /-- At the head of the loop of `pipewrite`, at its test of `killed`, and after it. -/
  | writeTop (n : Int) (i : Nat)
  | writeKilled (n : Int) (i : Nat)
  | writeBody (n : Int) (i : Nat)
  /-- At the head of the first loop of `piperead`, at its test of `killed`, and in the
  second loop. -/
  | readTop (n : Int)
  | readKilled (n : Int)
  | readCopy (n : Int) (i : Nat)
  /-- In `wakeup`, with the processes from `index` on still to be looked at. -/
  | wakeup (chan : PipeChan) (index : Nat) (after : AfterWakeup)
  /-- In `sleep`: about to acquire `p->lock`, to release `pi->lock`, to set the state. -/
  | sleepLock (chan : PipeChan) (call : PipeCall)
  | sleepUnlock (chan : PipeChan) (call : PipeCall)
  | sleepSet (chan : PipeChan) (call : PipeCall)
  /-- Given up to the scheduler in `sleep`. -/
  | asleep (call : PipeCall)
  /-- About to release `pi->lock` and return. -/
  | unlock (r : Int)
  | closeUnlock
  deriving DecidableEq, Repr

/-- A process as the pipe sees it.  `locked` says that it holds its own `p->lock`. -/
structure PipeProc where
  state : ProcState
  chan : Option PipeChan
  killed : Bool
  locked : Bool
  pc : PipePc

/-- A pipe and the processes that use it. -/
structure PipeState where
  data : Nat → UInt8
  nread : Nat
  nwrite : Nat
  readopen : Bool
  writeopen : Bool
  /-- The holder of `pi->lock`. -/
  lock : Option Nat
  /-- Both ends are closed and the page has been given back. -/
  freed : Bool
  proc : Nat → PipeProc
  /-- History: the bytes appended by writers. -/
  written : List UInt8
  /-- History: the bytes copied out to readers. -/
  delivered : List UInt8

namespace PipeState

def ring (s : PipeState) : RingBuffer UInt8 := ⟨s.data, s.nread, s.nwrite⟩

/-- `nwrite - nread` as a `uint`. -/
def count (s : PipeState) : Nat := s.ring.count U32

/-- The bytes in the pipe. -/
def contents (s : PipeState) : List UInt8 := s.ring.contents PIPESIZE U32

/-- The bytes in the pipe with the two histories. -/
def bytes (s : PipeState) : RingBuffer UInt8 × List UInt8 × List UInt8 :=
  (s.ring, s.written, s.delivered)

def setProc (s : PipeState) (p : Nat) (t : PipeProc) : PipeState :=
  { s with proc := update s.proc p t }

/-- The process `p` goes on at `pc`. -/
def goto (s : PipeState) (p : Nat) (pc : PipePc) : PipeState :=
  s.setProc p { s.proc p with pc := pc }

/-- `pi->nwrite == pi->nread + PIPESIZE`. -/
def isFull (s : PipeState) : Prop := s.nwrite = (s.nread + PIPESIZE) % U32

instance (s : PipeState) : Decidable s.isFull :=
  inferInstanceAs (Decidable (s.nwrite = (s.nread + PIPESIZE) % U32))

/-- `pi->data[pi->nwrite++ % PIPESIZE] = ch`. -/
def append (s : PipeState) (ch : UInt8) : PipeState :=
  { s with
    data := update s.data (s.nwrite % PIPESIZE) ch
    nwrite := (s.nwrite + 1) % U32
    written := s.written ++ [ch] }

/-- `ch = pi->data[pi->nread % PIPESIZE]`, copied out, and `pi->nread++`. -/
def deliver (s : PipeState) : PipeState :=
  { s with
    nread := (s.nread + 1) % U32
    delivered := s.delivered ++ [s.data (s.nread % PIPESIZE)] }

/-- The body of the loop of `wakeup` for one process. -/
def wake (s : PipeState) (chan : PipeChan) (q : Nat) : PipeState :=
  if (s.proc q).state = .SLEEPING ∧ (s.proc q).chan = some chan then
    s.setProc q { s.proc q with state := .RUNNABLE }
  else s

end PipeState

def AfterWakeup.pc : AfterWakeup → PipePc
  | .sleep chan call => .sleepLock chan call
  | .unlock r => .unlock r
  | .closeUnlock => .closeUnlock

namespace PipeState

/-- A call that has just acquired `pi->lock`. -/
def entered (s : PipeState) (p : Nat) : PipeCall → PipeState
  | .write n i => s.goto p (.writeTop n i)
  | .read n => s.goto p (.readTop n)
  | .close true => { s with writeopen := false }.goto p (.wakeup .nread 0 .closeUnlock)
  | .close false => { s with readopen := false }.goto p (.wakeup .nwrite 0 .closeUnlock)

/-- The next step of process `p`, if it is not waiting for a lock or asleep.  The input
is what `copyin` delivers, or whether `copyout` succeeds: `none` is failure. -/
def step (s : PipeState) (p : Nat) (input : Option UInt8) : Option PipeState :=
  match (s.proc p).pc with
  | .returned _ => none
  | .enter call =>
    if s.lock = none ∧ s.freed = false then some ({ s with lock := some p }.entered p call)
    else none
  | .writeTop n i =>
    if i < n then
      if s.readopen = false then some (s.goto p (.unlock (-1)))
      else some (s.goto p (.writeKilled n i))
    else some (s.goto p (.wakeup .nread 0 (.unlock i)))
  | .writeKilled n i =>
    if (s.proc p).killed then some (s.goto p (.unlock (-1)))
    else some (s.goto p (.writeBody n i))
  | .writeBody n i =>
    if s.isFull then some (s.goto p (.wakeup .nread 0 (.sleep .nwrite (.write n i))))
    else
      match input with
      | none => some (s.goto p (.wakeup .nread 0 (.unlock i)))
      | some ch => some ((s.append ch).goto p (.writeTop n (i + 1)))
  | .readTop n =>
    if s.nread = s.nwrite ∧ s.writeopen = true then some (s.goto p (.readKilled n))
    else some (s.goto p (.readCopy n 0))
  | .readKilled n =>
    if (s.proc p).killed then some (s.goto p (.unlock (-1)))
    else some (s.goto p (.sleepLock .nread (.read n)))
  | .readCopy n i =>
    if i < n then
      if s.nread = s.nwrite then some (s.goto p (.wakeup .nwrite 0 (.unlock i)))
      else
        match input with
        | none => some (s.goto p (.wakeup .nwrite 0 (.unlock (if i = 0 then -1 else i))))
        | some _ => some (s.deliver.goto p (.readCopy n (i + 1)))
    else some (s.goto p (.wakeup .nwrite 0 (.unlock i)))
  | .wakeup chan index after =>
    if index < NPROC then
      if index = p then some (s.goto p (.wakeup chan (index + 1) after))
      else if (s.proc index).locked then none
      else some ((s.wake chan index).goto p (.wakeup chan (index + 1) after))
    else some (s.goto p after.pc)
  | .sleepLock chan call =>
    if (s.proc p).locked then none
    else some (s.setProc p { s.proc p with locked := true, pc := .sleepUnlock chan call })
  | .sleepUnlock chan call => some ({ s with lock := none }.goto p (.sleepSet chan call))
  | .sleepSet chan call =>
    some (s.setProc p { s.proc p with
      state := .SLEEPING
      chan := some chan
      locked := false
      pc := .asleep call })
  | .asleep call =>
    if (s.proc p).state = .SLEEPING then none
    else some (s.setProc p { s.proc p with chan := none, pc := .enter call })
  | .unlock r => some ({ s with lock := none }.goto p (.returned r))
  | .closeUnlock =>
    some ({ s with
      lock := none
      freed := !s.readopen && !s.writeopen }.goto p (.returned 0))

/-- `kkill` once it has found the process. -/
def kkill (s : PipeState) (q : Nat) : Option PipeState :=
  if (s.proc q).locked then none
  else some (s.setProc q { s.proc q with
    killed := true
    state := if (s.proc q).state = .SLEEPING then .RUNNABLE else (s.proc q).state })

/-- A process that is not in a call begins one. -/
def begin (s : PipeState) (p : Nat) (call : PipeCall) : Option PipeState :=
  match (s.proc p).pc with
  | .returned _ => some (s.goto p (.enter call))
  | _ => none

end PipeState

inductive PipeEvent where
  | pipewrite (p : Nat) (n : Int)
  | piperead (p : Nat) (n : Int)
  | pipeclose (p : Nat) (writable : Bool)
  | step (p : Nat) (input : Option UInt8)
  | kkill (p : Nat)

def PipeEvent.actor : PipeEvent → Nat
  | .pipewrite p _ => p
  | .piperead p _ => p
  | .pipeclose p _ => p
  | .step p _ => p
  | .kkill p => p

namespace PipeState

def next (s : PipeState) (e : PipeEvent) : Option PipeState :=
  if e.actor < NPROC then
    match e with
    | .pipewrite p n => s.begin p (.write n 0)
    | .piperead p n => s.begin p (.read n)
    | .pipeclose p writable => s.begin p (.close writable)
    | .step p input => s.step p input
    | .kkill p => s.kkill p
  else none

/-- The pipe that `pipealloc` makes on a page of `kalloc`, before any call on it. -/
def pipealloc : PipeState where
  data := fun _ => 5
  nread := 0
  nwrite := 0
  readopen := true
  writeopen := true
  lock := none
  freed := false
  proc := fun _ => ⟨.RUNNABLE, none, false, false, .returned 0⟩
  written := []
  delivered := []

/-- A pipe as `pipealloc` makes it, whatever the page held and whoever was killed. -/
structure Initial (s : PipeState) : Prop where
  nread : s.nread = 0
  nwrite : s.nwrite = 0
  readopen : s.readopen = true
  writeopen : s.writeopen = true
  lock : s.lock = none
  freed : s.freed = false
  proc : ∀ p, (s.proc p).state = .RUNNABLE ∧ (s.proc p).chan = none ∧
    (s.proc p).locked = false ∧ ∃ r, (s.proc p).pc = .returned r
  written : s.written = []
  delivered : s.delivered = []

/-- The states of a pipe in every interleaving of calls whose steps meet `ok`. -/
def Reachable (ok : PipeState → PipeEvent → Prop) : PipeState → Prop :=
  Machine.Reach next ok Initial

end PipeState

/-! ## The bytes in order -/

namespace PipeState

variable {s s' : PipeState} {p : Nat} {input : Option UInt8} {e : PipeEvent}

/-- Everything a step can do to the bytes: nothing, append one to a pipe that is not full,
or take the first out of a pipe that is not empty. -/
inductive Transfer (s s' : PipeState) : Prop
  | none : s'.bytes = s.bytes → Transfer s s'
  | append (ch : UInt8) : ¬ s.isFull → s'.bytes = (s.append ch).bytes → Transfer s s'
  | deliver : s.nread ≠ s.nwrite → s'.bytes = s.deliver.bytes → Transfer s s'

theorem bytes_wake (s : PipeState) (chan : PipeChan) (q : Nat) :
    (s.wake chan q).bytes = s.bytes := by
  rw [wake]
  split <;> rfl

theorem bytes_entered (s : PipeState) (p : Nat) (call : PipeCall) :
    (s.entered p call).bytes = s.bytes := by
  cases call with
  | write n i => rfl
  | read n => rfl
  | close writable => cases writable <;> rfl

theorem step_transfer (h : s.step p input = some s') : Transfer s s' := by
  cases hpc : (s.proc p).pc
  all_goals simp only [step, hpc] at h
  case enter call =>
    split at h
    · exact .none (some.inj h ▸ bytes_entered _ p call)
    · cases h
  case writeBody n i =>
    split at h
    · exact .none (some.inj h ▸ rfl)
    · cases input with
      | none => exact .none (some.inj h ▸ rfl)
      | some ch => exact .append ch ‹_› (some.inj h ▸ rfl)
  case readCopy n i =>
    split at h
    · split at h
      · exact .none (some.inj h ▸ rfl)
      · cases input with
        | none => exact .none (some.inj h ▸ rfl)
        | some ch => exact .deliver ‹_› (some.inj h ▸ rfl)
    · exact .none (some.inj h ▸ rfl)
  case wakeup chan index after =>
    split at h
    · split at h
      · exact .none (some.inj h ▸ rfl)
      · split at h
        · cases h
        · exact .none (some.inj h ▸ bytes_wake s chan index)
    · exact .none (some.inj h ▸ rfl)
  -- elsewhere only the processes, the lock and the open flags change
  all_goals repeat split at h
  all_goals first | cases h; done | exact .none (some.inj h ▸ rfl)

theorem begin_eq {call : PipeCall} (h : s.begin p call = some s') :
    (∃ r, (s.proc p).pc = .returned r) ∧ s' = s.goto p (.enter call) := by
  rw [begin] at h
  split at h
  · exact ⟨⟨_, ‹_›⟩, (some.inj h).symm⟩
  · cases h

theorem next_transfer (h : s.next e = some s') : Transfer s s' := by
  unfold next at h
  split at h
  · cases e with
    | pipewrite p n => exact .none (by rw [(begin_eq h).2]; rfl)
    | piperead p n => exact .none (by rw [(begin_eq h).2]; rfl)
    | pipeclose p writable => exact .none (by rw [(begin_eq h).2]; rfl)
    | step p input => exact step_transfer h
    | kkill q =>
      simp only [kkill] at h
      split at h
      · cases h
      · exact .none (some.inj h ▸ rfl)
  · cases h

/-- The counters are at most `PIPESIZE` apart, and what was written is what was delivered
followed by what is in the pipe. -/
structure Fifo (s : PipeState) : Prop where
  ring : s.ring.Ok PIPESIZE U32
  order : s.written = s.delivered ++ s.contents

theorem Fifo.congr (h : Fifo s) (hbytes : s'.bytes = s.bytes) : Fifo s' := by
  simp only [bytes, Prod.mk.injEq] at hbytes
  obtain ⟨hring, hwritten, hdelivered⟩ := hbytes
  refine ⟨hring ▸ h.ring, ?_⟩
  rw [hwritten, hdelivered, contents, hring]
  exact h.order

theorem pipesize_lt : PIPESIZE < U32 := by decide

theorem pipesize_dvd : PIPESIZE ∣ U32 := by decide

theorem Fifo.isFull_iff (h : Fifo s) : s.isFull ↔ s.count = PIPESIZE :=
  h.ring.full_iff pipesize_lt

theorem Fifo.empty_iff (h : Fifo s) : s.nread = s.nwrite ↔ s.count = 0 :=
  h.ring.empty_iff pipesize_lt

theorem Fifo.append (h : Fifo s) (hroom : ¬ s.isFull) (ch : UInt8) : Fifo (s.append ch) := by
  have hle := (h.ring.tail_eq pipesize_lt).1
  have hne : s.ring.count U32 ≠ PIPESIZE := fun heq => hroom (h.isFull_iff.mpr heq)
  have hlt : s.ring.count U32 < PIPESIZE := by omega
  refine ⟨h.ring.push pipesize_lt hlt ch, ?_⟩
  calc s.written ++ [ch] = s.delivered ++ (s.contents ++ [ch]) := by
        rw [h.order, append_assoc]
    _ = s.delivered ++ (s.append ch).contents :=
        congrArg _ (h.ring.contents_push pipesize_lt pipesize_dvd hlt ch).symm

theorem Fifo.deliver (h : Fifo s) (hsome : s.nread ≠ s.nwrite) : Fifo s.deliver := by
  have hpos : 0 < s.ring.count U32 :=
    Nat.pos_of_ne_zero fun hzero => hsome (h.empty_iff.mpr hzero)
  refine ⟨h.ring.pop pipesize_lt hpos, ?_⟩
  calc s.written = s.delivered ++ s.contents := h.order
    _ = s.delivered ++ (s.ring.front PIPESIZE :: s.deliver.contents) :=
        congrArg _ (h.ring.contents_pop pipesize_lt pipesize_dvd hpos)
    _ = s.delivered ++ [s.ring.front PIPESIZE] ++ s.deliver.contents := by
        rw [append_assoc, singleton_append]

theorem Fifo.next (h : Fifo s) (hnext : s.next e = some s') : Fifo s' := by
  cases next_transfer hnext with
  | none hbytes => exact h.congr hbytes
  | append ch hroom hbytes => exact (h.append hroom ch).congr hbytes
  | deliver hsome hbytes => exact (h.deliver hsome).congr hbytes

theorem Initial.fifo (h : Initial s) : Fifo s := by
  have hring : s.ring = ⟨s.data, 0, 0⟩ := by rw [ring, h.nread, h.nwrite]
  refine ⟨hring ▸ RingBuffer.ok_empty _ (by decide), ?_⟩
  rw [h.written, h.delivered, contents, hring, RingBuffer.contents_empty]
  rfl

theorem Reachable.fifo {ok : PipeState → PipeEvent → Prop} (h : Reachable ok s) : Fifo s :=
  Machine.Reach.invariant (fun _ => Initial.fifo) (fun _ _ _ hf _ hnext => hf.next hnext) h

/-- A pipe is a lossless queue in every interleaving: what was delivered, followed by what
is in the pipe, is what was written; the counters are at most `PIPESIZE` apart, also once
they have wrapped; and a read whose `copyout` fails takes nothing out. -/
theorem pipe_fifo (h : Reachable (fun _ _ => True) s) :
    s.delivered <+: s.written ∧ s.written = s.delivered ++ s.contents ∧
      s.count = s.contents.length ∧ s.count ≤ PIPESIZE ∧
      ∀ p n i s', (s.proc p).pc = .readCopy n i → s.next (.step p none) = some s' →
        s'.bytes = s.bytes := by
  have hfifo := Reachable.fifo h
  refine ⟨⟨s.contents, hfifo.order.symm⟩, hfifo.order,
    (RingBuffer.length_contents _ _ s.ring).symm, (hfifo.ring.tail_eq pipesize_lt).1, ?_⟩
  intro p n i s' hpc hnext
  simp only [PipeState.next, step, hpc] at hnext
  repeat split at hnext
  all_goals first | cases hnext; done | exact some.inj hnext ▸ rfl

theorem pipealloc_initial : Initial pipealloc :=
  ⟨rfl, rfl, rfl, rfl, rfl, rfl, fun _ => ⟨rfl, rfl, rfl, 0, rfl⟩, rfl, rfl⟩

/-- One process writes two bytes and another reads one of them. -/
theorem pipe_fifo_write_read :
    ∃ s, Reachable (fun _ _ => True) s ∧ s.delivered = [7] ∧
      s.written = s.delivered ++ s.contents ∧ s.contents = [8] := by
  have hrun : (Machine.run PipeState.next pipealloc
      (.pipewrite 1 2 :: replicate 4 (.step 1 (some 7)) ++
        replicate 70 (.step 1 (some 8)) ++ .piperead 0 1 ::
        replicate 3 (.step 0 (some 0)))).map (fun s => (s.delivered, s.contents)) =
      some ([7], [8]) := by
    decide +kernel
  obtain ⟨s, hs, hbytes⟩ := map_eq_some_iff.mp hrun
  have hreach : Reachable (fun _ _ => True) s :=
    (Machine.Reach.start pipealloc_initial).of_run (fun _ _ _ => trivial) hs
  simp only [Prod.mk.injEq] at hbytes
  exact ⟨s, hreach, hbytes.1, (pipe_fifo hreach).2.1, hbytes.2⟩

end PipeState

end EAFITos
