/-
The system calls of `kernel/sysproc.c` that concern memory, the page-fault branch
of `usertrap` in `kernel/trap.c`, and the loads and stores of user code.
-/
import EAFITos.Proc
import EAFITos.PageTable

namespace EAFITos

/-- `argint`: the low 32 bits of an argument register, as an `int`. -/
def argint (raw : Nat) : Int := wrap32 raw

/-- Growth only moves `sz`; shrinking goes through `growproc`. -/
def sysSbrk (i a0 : Nat) : Prog Kernel Int := do
  let n := argint a0
  let addr := (← getProc i).sz
  if n < 0 then do
    if (← growproc i n) < 0 then pure (-1)
    else pure addr
  else if addInt addr n < addr then pure (-1)
  else if addInt addr n > TRAPFRAME then pure (-1)
  else do
    setProc i fun p => { p with sz := addInt p.sz n }
    pure addr

def sysShmem (i a0 va : Nat) : Prog Kernel Int := do
  match ← Prog.read (findproc (argint a0)) with
  | none => pure (-1)
  | some j => do
    let p ← getProc i
    let other ← getProc j
    match ← onPhys kalloc with
    | none => pure (-1)
    | some mem => do
      onPhys (memset mem 0 PGSIZE)
      if (← onPhys (mappages p.pagetable va PGSIZE mem
          (PTE_R ||| PTE_W ||| PTE_U))) ≠ 0 then do
        onPhys (kfree mem)
        pure (-1)
      else if (← onPhys (mappages other.pagetable va PGSIZE mem
          (PTE_R ||| PTE_W ||| PTE_U))) ≠ 0 then do
        onPhys (uvmunmap p.pagetable va 1 false)
        onPhys (kfree mem)
        pure (-1)
      else pure va

/-- The bytes of `"mensaje solo lectura"` and the NUL after them. -/
def roMessage : List UInt8 :=
  [0x6d, 0x65, 0x6e, 0x73, 0x61, 0x6a, 0x65, 0x20, 0x73, 0x6f, 0x6c, 0x6f, 0x20,
    0x6c, 0x65, 0x63, 0x74, 0x75, 0x72, 0x61, 0x00]

def sysMapRo (i a0 : Nat) : Prog Kernel Int := do
  let va := PGROUNDDOWN a0
  let p ← getProc i
  if ← onPhys (ismapped p.pagetable va) then pure (-1)
  else do
    match ← onPhys kalloc with
    | none => pure (-1)
    | some mem => do
      onPhys (memset mem 0 PGSIZE)
      onPhys (Prog.update fun s => { s with mem := s.mem.storeBytes mem roMessage })
      if (← onPhys (mappages p.pagetable va PGSIZE mem (PTE_R ||| PTE_U))) ≠ 0 then do
        onPhys (kfree mem)
        pure (-1)
      else pure 0

def sysGetpfaults (i : Nat) : Prog Kernel Int := do
  pure (← getProc i).pageFaults

def sysResetpfaults (i : Nat) : Prog Kernel Int := do
  setProc i fun p => { p with pageFaults := 0 }
  pure 0

/-- Where `mapzero` places its region. -/
def regionStart : Nat := 0x70000000

/-- `PGROUNDUP` of an `int`. -/
def pgroundupInt (size : Int) : Int := wrap32 (size + 4095) / 4096 * 4096

def sysMapzero (i a0 : Nat) : Prog Kernel Int := do
  let size := argint a0
  if size ≤ 0 then pure (-1)
  else do
    let size := pgroundupInt size
    let p ← getProc i
    if p.hasRegion then pure (-1)
    else if addInt regionStart size < regionStart then pure (-1)
    else if addInt regionStart size ≥ TRAPFRAME then pure (-1)
    else do
      setProc i fun p => { p with
        region := ⟨regionStart, size.toNat⟩
        hasRegion := true }
      pure regionStart

/-- `badva` lies in the region of the process. -/
def inRegion (p : Proc) (badva : Nat) : Bool :=
  p.hasRegion && decide (p.region.start ≤ badva) &&
    decide (badva < p.region.start + p.region.size)

def countFault (i : Nat) : Prog Kernel PUnit :=
  setProc i fun p => { p with pageFaults := wrap32 (p.pageFaults + 1) }

/-- The part of the page-fault branch for an address in the region. -/
def regionFault (i badva : Nat) : Prog Kernel PUnit := do
  let va := PGROUNDDOWN badva
  let p ← getProc i
  if ← onPhys (ismapped p.pagetable va) then setkilled i
  else do
    match ← onPhys kalloc with
    | none => setkilled i
    | some mem => do
      onPhys (memset mem 0x41 PGSIZE)
      if (← onPhys (mappages p.pagetable va PGSIZE mem
          (PTE_R ||| PTE_W ||| PTE_U))) ≠ 0 then do
        onPhys (kfree mem)
        setkilled i
      else countFault i

/-- The page-fault branch of `usertrap`, up to the check of `killed`. -/
def handleFault (i badva : Nat) : Prog Kernel PUnit := do
  let p ← getProc i
  if inRegion p badva then regionFault i badva
  else do
    match ← onPhys (vmfault p.sz p.pagetable p.pagetable badva) with
    | some _ => countFault i
    | none => setkilled i

/-- A load or store page fault taken in user mode. -/
def usertrap (i badva : Nat) : Prog Kernel PUnit := do
  handleFault i badva
  if (← getProc i).killed then kexit i (-1) else pure ⟨⟩

/-- The translation of a user access that needs `flag`: what the hardware finds in
the page table. -/
def translate (m : ByteMem) (pagetable va flag : Nat) : Option Nat :=
  if va < MAXVA then
    match leafPte m pagetable (va / PGSIZE) with
    | none => none
    | some pte =>
      if hasFlag pte PTE_U && hasFlag pte flag then some (PTE2PA pte + va % PGSIZE)
      else none
  else none

/-- A user access: it goes through, or faults and is tried again, or the process
is killed (`none`). -/
def userAccess (i va flag : Nat) : Prog Kernel (Option Nat) := do
  let p ← getProc i
  match ← Prog.read (fun k => translate k.phys.mem p.pagetable va flag) with
  | some pa => pure (some pa)
  | none => do
    usertrap i va
    if (← getProc i).state = .ZOMBIE then pure none
    else do
      match ← Prog.read (fun k => translate k.phys.mem p.pagetable va flag) with
      | some pa => pure (some pa)
      | none => Prog.stuck

def userLoad (i va : Nat) : Prog Kernel (Option UInt8) := do
  match ← userAccess i va PTE_R with
  | none => pure none
  | some pa => do
    let b ← Prog.read fun k => k.phys.mem pa
    pure (some b)

def userStore (i va : Nat) (b : UInt8) : Prog Kernel Bool := do
  match ← userAccess i va PTE_W with
  | none => pure false
  | some pa => do
    onPhys (Prog.update fun s => { s with mem := s.mem.storeBytes pa [b] })
    pure true

end EAFITos
