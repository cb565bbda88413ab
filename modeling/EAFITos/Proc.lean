/-
The process table of `kernel/proc.c`: allocation and release of processes, fork,
exit and wait.  A process is named by its slot, and the caller of a function is
the slot it takes first.
-/
import EAFITos.Vm
import Mathlib.Logic.Function.Basic

namespace EAFITos

def NPROC : Nat := 64

inductive ProcState where
  | UNUSED
  | USED
  | SLEEPING
  | RUNNABLE
  | RUNNING
  | ZOMBIE
  deriving DecidableEq, Repr

/-- `struct vregion`. -/
structure VRegion where
  start : Nat
  size : Nat
  deriving DecidableEq, Repr

/-- The fields of `struct proc` that concern memory and the life of a process.
A null `pagetable` or `trapframe` is 0. -/
structure Proc where
  state : ProcState
  killed : Bool
  xstate : Int
  pid : Int
  traceMask : Int
  pageFaults : Int
  hasRegion : Bool
  region : VRegion
  parent : Option Nat
  sz : Nat
  pagetable : Nat
  trapframe : Nat
  deriving DecidableEq, Repr

/-- The kernel: memory, the process table and the process identifiers. -/
structure Kernel where
  phys : Phys
  proc : Nat → Proc
  nextpid : Int
  initproc : Nat
  /-- Pages held by pipes, kernel stacks and device rings. -/
  kbufs : List Nat

/-- The modulus of the type `uint`. -/
def U32 : Nat := 2 ^ 32

/-- The value of an `int` computed as `x`. -/
def wrap32 (x : Int) : Int := (x + 2 ^ 31) % 2 ^ 32 - 2 ^ 31

/-- `a + n` for a `uint64` and an `int`. -/
def addInt (a : Nat) (n : Int) : Nat := (((a : Int) + n) % 2 ^ 64).toNat

/-- `a - b` for `uint64`. -/
def sub64 (a b : Nat) : Nat := (a + (U64 - b % U64)) % U64

/-- The `width` bytes of a number as it lies in memory. -/
def leBytes (width v : Nat) : List UInt8 :=
  (List.range width).map fun i => UInt8.ofNat (v / 256 ^ i)

def onPhys {α : Type} (x : Prog Phys α) : Prog Kernel α :=
  Prog.zoom Kernel.phys (fun s k => { k with phys := s }) x

def getProc (i : Nat) : Prog Kernel Proc := Prog.read fun k => k.proc i

def setProc (i : Nat) (f : Proc → Proc) : Prog Kernel PUnit :=
  Prog.update fun k => { k with proc := Function.update k.proc i (f (k.proc i)) }

def allocpid : Prog Kernel Int := do
  let pid ← Prog.read Kernel.nextpid
  Prog.update fun k => { k with nextpid := wrap32 (k.nextpid + 1) }
  pure pid

/-- An empty user page table with the trampoline and the trapframe mapped. -/
def procPagetable (trapframe : Nat) : Prog Phys (Option Nat) := do
  match ← uvmcreate with
  | none => pure none
  | some pagetable => do
    let trampoline ← Prog.read Phys.trampoline
    if (← mappages pagetable TRAMPOLINE PGSIZE trampoline (PTE_R ||| PTE_X)) < 0 then do
      uvmfree pagetable 0
      pure none
    else if (← mappages pagetable TRAPFRAME PGSIZE trapframe (PTE_R ||| PTE_W)) < 0 then do
      uvmunmap pagetable TRAMPOLINE 1 false
      uvmfree pagetable 0
      pure none
    else pure (some pagetable)

/-- The two addresses that `proc_freepagetable` unmaps without freeing. -/
def shmemva : Nat := 0x60000000
def rova : Nat := 0x50000000

/-- `if(pte && (*pte & PTE_V)) uvmunmap(pagetable, va, 1, 0)`. -/
def unmapValid (pagetable va : Nat) : Prog Phys PUnit := do
  match ← walk pagetable va false with
  | none => pure ⟨⟩
  | some slot => do
    let pte ← loadPte slot
    Prog.when (hasFlag pte PTE_V) (uvmunmap pagetable va 1 false)

def procFreepagetable (pagetable sz : Nat) : Prog Phys PUnit := do
  unmapValid pagetable shmemva
  unmapValid pagetable rova
  uvmunmap pagetable TRAMPOLINE 1 false
  uvmunmap pagetable TRAPFRAME 1 false
  uvmfree pagetable sz

/-- What `freeproc` leaves of a process. -/
def freedProc : Proc where
  state := .UNUSED
  killed := false
  xstate := 0
  pid := 0
  traceMask := 0
  pageFaults := 0
  hasRegion := false
  region := ⟨0, 0⟩
  parent := none
  sz := 0
  pagetable := 0
  trapframe := 0

/-- The memory side of `freeproc`: the trapframe, the region and the page table. -/
def freeprocMem (p : Proc) : Prog Phys PUnit := do
  Prog.when (p.trapframe ≠ 0) (kfree p.trapframe)
  Prog.when (p.pagetable ≠ 0) do
    Prog.when (p.hasRegion = true)
      (uvmunmap p.pagetable p.region.start (p.region.size / PGSIZE) true)
    procFreepagetable p.pagetable p.sz

def freeproc (i : Nat) : Prog Kernel PUnit := do
  let p ← getProc i
  onPhys (freeprocMem p)
  setProc i fun _ => freedProc

/-- The first slot below `NPROC` that satisfies a test. -/
def scanProc (test : Proc → Bool) (k : Kernel) : Option Nat :=
  (List.range NPROC).find? fun i => test (k.proc i)

def allocproc : Prog Kernel (Option Nat) := do
  match ← Prog.read (scanProc fun p => p.state = .UNUSED) with
  | none => pure none
  | some i => do
    let pid ← allocpid
    setProc i fun p => { p with
      pid := pid
      state := .USED
      traceMask := 0
      pageFaults := 0
      hasRegion := false
      region := ⟨0, 0⟩ }
    match ← onPhys kalloc with
    | none => do
      setProc i fun p => { p with trapframe := 0 }
      freeproc i
      pure none
    | some trapframe => do
      setProc i fun p => { p with trapframe := trapframe }
      match ← onPhys (procPagetable trapframe) with
      | none => do
        setProc i fun p => { p with pagetable := 0 }
        freeproc i
        pure none
      | some pagetable => do
        setProc i fun p => { p with pagetable := pagetable }
        pure (some i)

/-- `sizeof(struct trapframe)` and the offsets of the registers that are set. -/
def trapframeSize : Nat := 288
def epcOffset : Nat := 24
def spOffset : Nat := 48
def a0Offset : Nat := 112
def a1Offset : Nat := 120

def kfork (i : Nat) : Prog Kernel Int := do
  match ← allocproc with
  | none => pure (-1)
  | some j => do
    let p ← getProc i
    let np ← getProc j
    if (← onPhys (uvmcopy p.pagetable np.pagetable p.sz)) < 0 then do
      freeproc j
      pure (-1)
    else do
      onPhys (memmove np.trapframe p.trapframe trapframeSize)
      onPhys (storePte (np.trapframe + a0Offset) 0)
      setProc j fun np => { np with
        sz := p.sz
        traceMask := p.traceMask
        pageFaults := p.pageFaults
        hasRegion := p.hasRegion
        region := p.region
        parent := some i
        state := .RUNNABLE }
      pure np.pid

/-- Pass the children of `i` to init. -/
def reparent (i : Nat) : Prog Kernel PUnit :=
  Prog.update fun k => { k with
    proc := fun j =>
      if (k.proc j).parent = some i then { k.proc j with parent := some k.initproc }
      else k.proc j }

def kexit (i : Nat) (status : Int) : Prog Kernel PUnit := do
  if i = (← Prog.read Kernel.initproc) then Prog.panic "init exiting"
  else do
    reparent i
    setProc i fun p => { p with xstate := status, state := .ZOMBIE }

/-- One scan of `kwait`; `none` means that the caller goes to sleep and will scan
again. -/
def kwait (i addr : Nat) : Prog Kernel (Option Int) := do
  match ← Prog.read (scanProc fun p => p.parent = some i ∧ p.state = .ZOMBIE) with
  | some j => do
    let child ← getProc j
    let p ← getProc i
    if addr ≠ 0 then do
      if (← onPhys (copyout p.sz p.pagetable p.pagetable addr
          (leBytes 4 (child.xstate % 2 ^ 32).toNat))) < 0 then
        pure (some (-1))
      else do
        freeproc j
        pure (some child.pid)
    else do
      freeproc j
      pure (some child.pid)
  | none => do
    match ← Prog.read (scanProc fun p => p.parent = some i) with
    | none => pure (some (-1))
    | some _ => do
      if (← getProc i).killed then pure (some (-1)) else pure none

def growproc (i : Nat) (n : Int) : Prog Kernel Int := do
  let p ← getProc i
  if n > 0 then do
    if addInt p.sz n > TRAPFRAME then pure (-1)
    else do
      let sz ← onPhys (uvmalloc p.pagetable p.sz (addInt p.sz n) PTE_W)
      if sz = 0 then pure (-1)
      else do
        setProc i fun p => { p with sz := sz }
        pure 0
  else if n < 0 then do
    let sz ← onPhys (uvmdealloc p.pagetable p.sz (addInt p.sz n))
    setProc i fun p => { p with sz := sz }
    pure 0
  else pure 0

def findproc (pid : Int) (k : Kernel) : Option Nat :=
  scanProc (fun p => p.state ≠ .UNUSED ∧ p.pid = pid) k

def setkilled (i : Nat) : Prog Kernel PUnit :=
  setProc i fun p => { p with killed := true }

end EAFITos
