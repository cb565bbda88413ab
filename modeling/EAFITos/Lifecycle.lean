/-
The life of processes at the granularity of locks: `kfork`, `kexit`, `kwait` and
`kkill` of `kernel/proc.c` as steps on the process table.  What memory allocation and
copying return is an input of the step.
-/
import EAFITos.Transition
import EAFITos.Proc

namespace EAFITos

/-- What `kexit` goes on with after a call of `wakeup`. -/
inductive AfterWake where
  | reparent (status : Int) (index : Nat)
  | exitLock (status : Int)
  deriving DecidableEq, Repr

/-- Where a process stands in one of the calls. -/
inductive CallPc where
  /-- In none of the calls; the last one returned `r`. -/
  | user (r : Int)
  /-- `kfork`: looking for a slot in `allocproc`; copying the memory, with the lock of the
  child held; about to set the parent; about to set the state. -/
  | forkScan (index : Nat)
  | forkCopy (child : Nat)
  | forkParent (child : Nat) (pid : Int)
  | forkRun (child : Nat) (pid : Int)
  /-- `kexit`: about to acquire `wait_lock`; in `reparent`; in `wakeup`; about to acquire
  `p->lock`, to become a zombie and to leave for the scheduler. -/
  | exitWait (status : Int)
  | reparent (status : Int) (index : Nat)
  | wakeup (chan : Option Nat) (index : Nat) (after : AfterWake)
  | exitLock (status : Int)
  | exitZombie (status : Int)
  | exitSched
  /-- `kwait`: about to acquire `wait_lock`; in the scan; with a zombie whose lock is
  held; in `sleep`. -/
  | waitEnter (addr : Nat)
  | waitScan (addr index : Nat) (havekids : Bool)
  | waitFound (addr child : Nat)
  | sleepLock (addr : Nat)
  | sleepUnlock (addr : Nat)
  | sleepSet (addr : Nat)
  | asleep (addr : Nat)
  | kill (pid : Int) (index : Nat)
  deriving DecidableEq, Repr

/-- A slot of the table.  `chan` is the process slept on and `locked` the holder of
`p->lock`. -/
structure Slot where
  proc : Proc
  chan : Option Nat
  locked : Option Nat
  pc : CallPc

structure Reaped where
  waiter : Nat
  pid : Int
  status : Int
  deriving DecidableEq, Repr

structure Table where
  slot : Nat → Slot
  waitLock : Option Nat
  nextpid : Int
  initproc : Nat
  /-- History: identifier and status of the processes that have exited. -/
  exited : List (Int × Int)
  /-- History: what calls of `kwait` have returned. -/
  reaped : List Reaped

/-- What `allocproc` makes of a free slot. -/
def allocated (p : Proc) (pid : Int) (trapframe pagetable : Nat) : Proc :=
  { p with
    pid := pid
    state := .USED
    traceMask := 0
    pageFaults := 0
    hasRegion := false
    region := ⟨0, 0⟩
    trapframe := trapframe
    pagetable := pagetable }

/-- What `kfork` copies from the parent. -/
def inherit (np p : Proc) : Proc :=
  { np with
    sz := p.sz
    traceMask := p.traceMask
    pageFaults := p.pageFaults
    hasRegion := p.hasRegion
    region := p.region }

def Slot.freed (t : Slot) : Slot := { t with proc := freedProc, chan := none, locked := none }

/-- `kkill` on the process it looks for. -/
def Proc.kill (p : Proc) : Proc :=
  { p with killed := true, state := if p.state = .SLEEPING then .RUNNABLE else p.state }

def AfterWake.pc : AfterWake → CallPc
  | .reparent status index => .reparent status index
  | .exitLock status => .exitLock status

namespace Table

def setSlot (s : Table) (q : Nat) (t : Slot) : Table :=
  { s with slot := Function.update s.slot q t }

/-- The process `p` goes on at `pc`. -/
def goto (s : Table) (p : Nat) (pc : CallPc) : Table := s.setSlot p { s.slot p with pc := pc }

def setProc (s : Table) (q : Nat) (f : Proc → Proc) : Table :=
  s.setSlot q { s.slot q with proc := f (s.slot q).proc }

def setLocked (s : Table) (q : Nat) (locked : Option Nat) : Table :=
  s.setSlot q { s.slot q with locked := locked }

def setWait (s : Table) (holder : Option Nat) : Table := { s with waitLock := holder }

def noteExited (s : Table) (exit : Int × Int) : Table := { s with exited := s.exited ++ [exit] }

def noteReaped (s : Table) (reaped : Reaped) : Table := { s with reaped := s.reaped ++ [reaped] }

/-- `allocpid`, which returns the value before. -/
def allocpid (s : Table) : Table := { s with nextpid := wrap32 (s.nextpid + 1) }

/-- `allocproc` on a free slot, with the trapframe and the page table that it gets. -/
def allocFound (s : Table) (p j : Nat) : Option (Nat × Nat) → Option Table
  | none => some ((s.allocpid.goto p (.user (-1))).setSlot j (s.slot j).freed)
  | some (trapframe, pagetable) =>
    if trapframe = 0 ∨ pagetable = 0 then none
    else some ((s.allocpid.setSlot j
      { s.slot j with
        proc := allocated (s.slot j).proc s.nextpid trapframe pagetable
        locked := some p }).goto p (.forkCopy j))

/-- The rest of `kfork` up to the release of the child's lock; `uvmcopy` may fail. -/
def forkCopied (s : Table) (p child : Nat) : Option (Nat × Nat) → Table
  | none => (s.goto p (.user (-1))).setSlot child (s.slot child).freed
  | some _ => (s.setSlot child
      { s.slot child with
        proc := inherit (s.slot child).proc (s.slot p).proc
        locked := none }).goto p (.forkParent child (s.slot child).proc.pid)

/-- The end of `kwait` for a zombie that was found; `copyout` may fail. -/
def reap (s : Table) (p addr child : Nat) (input : Option (Nat × Nat)) : Table :=
  if addr ≠ 0 ∧ input = none then
    ((s.setWait none).goto p (.user (-1))).setLocked child none
  else
    (((s.setWait none).noteReaped ⟨p, (s.slot child).proc.pid, (s.slot child).proc.xstate⟩).goto p
      (.user (s.slot child).proc.pid)).setSlot child (s.slot child).freed

/-- The next step of the running process `p`, if it does not wait for a lock. -/
def step (s : Table) (p : Nat) (input : Option (Nat × Nat)) : Option Table :=
  match (s.slot p).pc with
  | .user _ => none
  | .forkScan index =>
    if index < NPROC then
      if (s.slot index).locked ≠ none then none
      else if (s.slot index).proc.state = .UNUSED then s.allocFound p index input
      else some (s.goto p (.forkScan (index + 1)))
    else some (s.goto p (.user (-1)))
  | .forkCopy child => some (s.forkCopied p child input)
  | .forkParent child pid =>
    if s.waitLock ≠ none then none
    else some ((s.setProc child fun np => { np with parent := some p }).goto p
      (.forkRun child pid))
  | .forkRun child pid =>
    if (s.slot child).locked ≠ none then none
    else some ((s.goto p (.user pid)).setProc child fun np => { np with state := .RUNNABLE })
  | .exitWait status =>
    if s.waitLock ≠ none then none
    else some ((s.setWait (some p)).goto p (.reparent status 0))
  | .reparent status index =>
    if index < NPROC then
      if (s.slot index).proc.parent = some p then
        some ((s.setProc index fun pp => { pp with parent := some s.initproc }).goto p
          (.wakeup (some s.initproc) 0 (.reparent status (index + 1))))
      else some (s.goto p (.reparent status (index + 1)))
    else some (s.goto p (.wakeup (s.slot p).proc.parent 0 (.exitLock status)))
  | .wakeup chan index after =>
    if index < NPROC then
      if index = p then some (s.goto p (.wakeup chan (index + 1) after))
      else if (s.slot index).locked ≠ none then none
      else if (s.slot index).proc.state = .SLEEPING ∧ (s.slot index).chan = chan then
        some ((s.setProc index fun pp => { pp with state := .RUNNABLE }).goto p
          (.wakeup chan (index + 1) after))
      else some (s.goto p (.wakeup chan (index + 1) after))
    else some (s.goto p after.pc)
  | .exitLock status =>
    if (s.slot p).locked ≠ none then none
    else some ((s.setLocked p (some p)).goto p (.exitZombie status))
  | .exitZombie status =>
    some ((((s.setWait none).noteExited ((s.slot p).proc.pid, status)).goto p .exitSched).setProc p
      fun pp => { pp with xstate := status, state := .ZOMBIE })
  | .exitSched => none
  | .waitEnter addr =>
    if s.waitLock ≠ none then none
    else some ((s.setWait (some p)).goto p (.waitScan addr 0 false))
  | .waitScan addr index havekids =>
    if index < NPROC then
      if (s.slot index).proc.parent = some p then
        if (s.slot index).locked ≠ none then none
        else if (s.slot index).proc.state = .ZOMBIE then
          some ((s.setLocked index (some p)).goto p (.waitFound addr index))
        else some (s.goto p (.waitScan addr (index + 1) true))
      else some (s.goto p (.waitScan addr (index + 1) havekids))
    else if havekids = false then some ((s.setWait none).goto p (.user (-1)))
    else if (s.slot p).locked ≠ none then none
    else if (s.slot p).proc.killed then some ((s.setWait none).goto p (.user (-1)))
    else some (s.goto p (.sleepLock addr))
  | .waitFound addr child => some (s.reap p addr child input)
  | .sleepLock addr =>
    if (s.slot p).locked ≠ none then none
    else some ((s.setLocked p (some p)).goto p (.sleepUnlock addr))
  | .sleepUnlock addr => some ((s.setWait none).goto p (.sleepSet addr))
  | .sleepSet addr =>
    some (s.setSlot p
      { s.slot p with
        proc := { (s.slot p).proc with state := .SLEEPING }
        chan := some p
        locked := none
        pc := .asleep addr })
  | .asleep addr => some (s.setSlot p { s.slot p with chan := none, pc := .waitEnter addr })
  | .kill pid index =>
    if index < NPROC then
      if (s.slot index).locked ≠ none then none
      else if (s.slot index).proc.pid = pid then
        some ((s.setProc index Proc.kill).goto p (.user 0))
      else some (s.goto p (.kill pid (index + 1)))
    else some (s.goto p (.user (-1)))

end Table

/-- No lock is held here, so that a timer interrupt can take the processor away. -/
def CallPc.interruptible : CallPc → Bool
  | .user _ | .forkScan _ | .forkParent _ _ | .forkRun _ _ | .exitWait _ | .waitEnter _
  | .kill _ _ => true
  | _ => false

inductive TableEvent where
  | kfork (p : Nat)
  | kexit (p : Nat) (status : Int)
  | kwait (p : Nat) (addr : Nat)
  | kkill (p : Nat) (pid : Int)
  /-- Calls that change the memory of the caller. -/
  | kexec (p : Nat) (sz pagetable : Nat)
  | sbrk (p : Nat) (sz : Nat)
  | mapzero (p : Nat) (region : VRegion)
  | step (p : Nat) (input : Option (Nat × Nat))
  /-- The scheduler takes up `p`, `p` yields, and the scheduler gets back from a process
  that has exited. -/
  | run (p : Nat)
  | yield (p : Nat)
  | swtch (p : Nat)

def TableEvent.actor : TableEvent → Nat
  | .kfork p | .kexit p _ | .kwait p _ | .kkill p _ | .kexec p _ _ | .sbrk p _ | .mapzero p _
  | .step p _ | .run p | .yield p | .swtch p => p

namespace Table

/-- A running process that is in none of the calls. -/
def inUser (s : Table) (p : Nat) : Bool :=
  (s.slot p).proc.state = .RUNNING && match (s.slot p).pc with
    | .user _ => true
    | _ => false

def next (s : Table) (e : TableEvent) : Option Table :=
  if e.actor < NPROC then
    match e with
    | .kfork p => if s.inUser p then some (s.goto p (.forkScan 0)) else none
    -- `kexit` of init is a panic
    | .kexit p status =>
      if s.inUser p ∧ p ≠ s.initproc then some (s.goto p (.exitWait status)) else none
    | .kwait p addr => if s.inUser p then some (s.goto p (.waitEnter addr)) else none
    | .kkill p pid => if s.inUser p then some (s.goto p (.kill pid 0)) else none
    | .kexec p sz pagetable =>
      if s.inUser p ∧ pagetable ≠ 0 then
        some (s.setProc p fun pp => { pp with sz := sz, pagetable := pagetable })
      else none
    | .sbrk p sz => if s.inUser p then some (s.setProc p fun pp => { pp with sz := sz }) else none
    | .mapzero p region =>
      if s.inUser p then
        some (s.setProc p fun pp => { pp with hasRegion := true, region := region })
      else none
    | .step p input => if (s.slot p).proc.state = .RUNNING then s.step p input else none
    | .run p =>
      if (s.slot p).proc.state = .RUNNABLE ∧ (s.slot p).locked = none then
        some (s.setProc p fun pp => { pp with state := .RUNNING })
      else none
    | .yield p =>
      if (s.slot p).proc.state = .RUNNING ∧ (s.slot p).pc.interruptible ∧
          (s.slot p).locked = none then
        some (s.setProc p fun pp => { pp with state := .RUNNABLE })
      else none
    | .swtch p =>
      if (s.slot p).pc = .exitSched then
        some (s.setSlot p { s.slot p with locked := none, pc := .user 0 })
      else none
  else none

/-- The table after `userinit`, with init in slot 0. -/
def userinit (trapframe pagetable : Nat) : Table where
  slot := fun q =>
    { proc :=
        if q = 0 then { allocated freedProc 1 trapframe pagetable with state := .RUNNABLE }
        else freedProc
      chan := none
      locked := none
      pc := .user 0 }
  waitLock := none
  nextpid := 2
  initproc := 0
  exited := []
  reaped := []

def Initial (s : Table) : Prop :=
  ∃ trapframe pagetable, trapframe ≠ 0 ∧ pagetable ≠ 0 ∧ s = userinit trapframe pagetable

/-- The tables in every interleaving of the calls whose steps meet `ok`. -/
def Reachable (ok : Table → TableEvent → Prop) : Table → Prop := Machine.Reach next ok Initial

end Table

end EAFITos
