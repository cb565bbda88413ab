/-
The file table of `kernel/file.c` and the descriptors of the processes: `open`, `dup`,
`pipe`, `close`, `read` and `write` of `kernel/sysfile.c`, with the descriptors in `kfork`
and `kexit`.  A step of a call has at most one section under `ftable.lock` or `pi->lock`.
What the file system, `kalloc` and `copyout` answer is an input.
-/
import EAFITos.Tally
import EAFITos.Transition
import EAFITos.Proc

namespace EAFITos

open Function List

def NFILE : Nat := 100
def NOFILE : Nat := 16
def NDEV : Nat := 10

def O_WRONLY : Nat := 0x001
def O_RDWR : Nat := 0x002

inductive FileType where
  | FD_NONE
  | FD_PIPE
  | FD_INODE
  | FD_DEVICE
  deriving DecidableEq, Repr

/-- `struct file`.  A pipe is named by its page and an inode by a number. -/
structure File where
  type : FileType
  ref : Nat
  readable : Bool
  writable : Bool
  pipe : Nat
  ip : Nat
  off : Nat
  major : Int
  deriving DecidableEq, Repr

/-- `pi->readopen` and `pi->writeopen`. -/
structure PipeEnds where
  readopen : Bool
  writeopen : Bool
  deriving DecidableEq, Repr

/-- What `sys_open` has found: an inode, and the major number of a device. -/
structure Opened where
  ip : Nat
  device : Option Int
  omode : Nat
  deriving DecidableEq, Repr

/-- Where a process stands.  `made` is the pipe that a failing call has made, and `ff` the
copy of a `struct file` whose object `fileclose` is about to close. -/
inductive FilePc where
  | unused
  /-- A child in the making, and a process that has exited. -/
  | embryo
  | zombie
  /-- Between system calls. -/
  | returned (r : Int)
  /-- In `sys_open`: about to call `filealloc`, and `fdalloc`. -/
  | openAlloc (o : Opened)
  | openFd (o : Opened) (f : Nat)
  /-- In `sys_pipe`: the three allocations of `pipealloc`, the descriptors and `copyout`. -/
  | pipeAlloc
  | pipeAlloc1 (rf : Nat)
  | pipePage (rf wf : Nat)
  | pipeFd (rf wf pi : Nat)
  | pipeCopy (rf wf pi fd0 fd1 : Nat)
  /-- A failing call closes the files that it has allocated. -/
  | undo (made : Option Nat) (fs : List Nat)
  | undoObject (made : Option Nat) (ff : File) (fs : List Nat)
  | closeObject (ff : File)
  /-- In the loop of `kfork`, and in the one of `kexit`. -/
  | forkDup (child i : Nat)
  | exitFd (i : Nat)
  | exitObject (ff : File) (f i : Nat)
  deriving DecidableEq, Repr

/-- `ftable`, the descriptors, and the pipes by page. -/
structure Ftable where
  file : Nat → File
  ofile : Nat → Nat → Option Nat
  pipe : Nat → Option PipeEnds
  proc : Nat → FilePc
  panicked : Option String
  /-- History: the descriptors of each process when its call began. -/
  saved : Nat → Nat → Option Nat

inductive FileEvent where
  /-- `found` is the inode that `create` or `namei` returns, if any. -/
  | sysOpen (p : Nat) (found : Option Opened)
  | sysDup (p : Nat) (fd : Int)
  | sysPipe (p : Nat)
  | sysClose (p : Nat) (fd : Int)
  | sysRead (p : Nat) (fd : Int) (r : Int)
  | sysWrite (p : Nat) (fd : Int) (r : Int)
  /-- `child` is what `allocproc` and `uvmcopy` yield. -/
  | kfork (p : Nat) (child : Option Nat)
  | kexit (p : Nat)
  | reap (p : Nat)
  /-- A step of a call; the input is the page that `kalloc` returns, or `none` if `kalloc` or
  `copyout` fails. -/
  | step (p : Nat) (input : Option Nat)
  deriving DecidableEq, Repr

/-- The process that an event is about. -/
def FileEvent.actor : FileEvent → Nat
  | .sysOpen p _ | .sysDup p _ | .sysPipe p | .sysClose p _ | .sysRead p _ _ | .sysWrite p _ _
  | .kfork p _ | .kexit p | .reap p | .step p _ => p

/-- A process that is not in a system call. -/
def FilePc.Between : FilePc → Prop
  | .unused | .zombie | .returned _ => True
  | _ => False

instance : DecidablePred FilePc.Between
  | .unused | .zombie | .returned _ => .isTrue trivial
  | .embryo | .openAlloc _ | .openFd _ _ | .pipeAlloc | .pipeAlloc1 _ | .pipePage _ _
  | .pipeFd _ _ _ | .pipeCopy _ _ _ _ _ | .undo _ _ | .undoObject _ _ _ | .closeObject _
  | .forkDup _ _ | .exitFd _ | .exitObject _ _ _ => .isFalse id

namespace Ftable

def goto (s : Ftable) (p : Nat) (pc : FilePc) : Ftable :=
  { s with proc := update s.proc p pc }

def setFile (s : Ftable) (f : Nat) (file : File) : Ftable :=
  { s with file := update s.file f file }

def setFd (s : Ftable) (p fd : Nat) (f : Option Nat) : Ftable :=
  { s with ofile := update s.ofile p (update (s.ofile p) fd f) }

def panic (s : Ftable) (message : String) : Ftable := { s with panicked := some message }

/-- The first entry with `ref` 0, which gets `ref` 1 and is not changed otherwise. -/
def filealloc (s : Ftable) : Option (Nat × Ftable) :=
  ((range NFILE).find? fun f => (s.file f).ref = 0).map fun f =>
    (f, s.setFile f { s.file f with ref := 1 })

def filedup (s : Ftable) (f : Nat) : Except String Ftable :=
  if (s.file f).ref < 1 then .error "filedup"
  else .ok (s.setFile f { s.file f with ref := (s.file f).ref + 1 })

/-- `fileclose` up to the release of `ftable.lock`, with the copy of an entry whose object is
still to be closed. -/
def fileclose (s : Ftable) (f : Nat) : Except String (Option File × Ftable) :=
  if (s.file f).ref < 1 then .error "fileclose"
  else if 1 < (s.file f).ref then
    .ok (none, s.setFile f { s.file f with ref := (s.file f).ref - 1 })
  else
    .ok (if (s.file f).type = .FD_NONE then none else some { s.file f with ref := 0 },
      s.setFile f { s.file f with ref := 0, type := .FD_NONE })

/-- The rest of `fileclose`: `pipeclose`, or `iput`, which concerns the inode table only.
Closing an end of a page that is no pipe would be a use after free. -/
def closeObject (s : Ftable) (ff : File) : Except String Ftable :=
  if ff.type = .FD_PIPE then
    match s.pipe ff.pipe with
    | none => .error "pipeclose"
    | some ends =>
      let ends : PipeEnds :=
        if ff.writable then { ends with writeopen := false } else { ends with readopen := false }
      let left := if ends.readopen = false ∧ ends.writeopen = false then none else some ends
      .ok { s with pipe := update s.pipe ff.pipe left }
  else .ok s

/-- The lowest free descriptor of `p`. -/
def fdalloc (s : Ftable) (p : Nat) : Option Nat :=
  (range NOFILE).find? fun fd => s.ofile p fd = none

/-- A descriptor of `p` and its file. -/
def argfd (s : Ftable) (p : Nat) (fd : Int) : Option (Nat × Nat) :=
  if 0 ≤ fd ∧ fd < NOFILE then (s.ofile p fd.toNat).map fun f => (fd.toNat, f) else none

/-- The entry that `sys_open` fills in. -/
def openFile (file : File) (o : Opened) : File :=
  { file with
    type := if o.device.isSome then .FD_DEVICE else .FD_INODE
    major := o.device.getD file.major
    off := if o.device.isSome then file.off else 0
    ip := o.ip
    readable := o.omode &&& O_WRONLY = 0
    writable := o.omode &&& O_WRONLY ≠ 0 ∨ o.omode &&& O_RDWR ≠ 0 }

/-- The entry of one end of a pipe. -/
def pipeFile (file : File) (pi : Nat) (writable : Bool) : File :=
  { file with type := .FD_PIPE, readable := !writable, writable := writable, pipe := pi }

/-- A result of `fileclose`: panic, go on at once, or close the object first. -/
def closing (s : Ftable) (f : Nat) (done : Ftable → Ftable) (object : File → Ftable → Ftable) :
    Ftable :=
  match s.fileclose f with
  | .error message => s.panic message
  | .ok (none, s') => done s'
  | .ok (some ff, s') => object ff s'

/-- The rest of `fileclose`, and what follows. -/
def closingObject (s : Ftable) (ff : File) (done : Ftable → Ftable) : Ftable :=
  match s.closeObject ff with
  | .error message => s.panic message
  | .ok s' => done s'

/-- The two descriptors of `sys_pipe`. -/
def pipeFds (s : Ftable) (p rf wf pi : Nat) : Ftable :=
  match s.fdalloc p with
  | none => s.goto p (.undo (some pi) [rf, wf])
  | some fd0 =>
    match (s.setFd p fd0 (some rf)).fdalloc p with
    | none => ((s.setFd p fd0 (some rf)).setFd p fd0 none).goto p (.undo (some pi) [rf, wf])
    | some fd1 =>
      ((s.setFd p fd0 (some rf)).setFd p fd1 (some wf)).goto p (.pipeCopy rf wf pi fd0 fd1)

/-- A round of the loop of `kfork`. -/
def forkRound (s : Ftable) (p child i : Nat) : Ftable :=
  match s.ofile p i with
  | none => s.goto p (.forkDup child (i + 1))
  | some f =>
    match s.filedup f with
    | .error message => s.panic message
    | .ok s' => (s'.setFd child i (some f)).goto p (.forkDup child (i + 1))

/-- A round of the loop of `kexit`. -/
def exitRound (s : Ftable) (p i : Nat) : Ftable :=
  match s.ofile p i with
  | none => s.goto p (.exitFd (i + 1))
  | some f =>
    s.closing f (fun s' => (s'.setFd p i none).goto p (.exitFd (i + 1)))
      fun ff s' => s'.goto p (.exitObject ff f i)

/-- The next step of a call of process `p`. -/
def step (s : Ftable) (p : Nat) (input : Option Nat) : Option Ftable :=
  match s.proc p with
  | .unused | .embryo | .zombie | .returned _ => none
  | .openAlloc o =>
    match s.filealloc with
    | none => some (s.goto p (.returned (-1)))
    | some (f, s') => some (s'.goto p (.openFd o f))
  | .openFd o f =>
    match s.fdalloc p with
    | none => some (s.goto p (.undo none [f]))
    | some fd =>
      some (((s.setFd p fd (some f)).setFile f (openFile (s.file f) o)).goto p (.returned fd))
  | .pipeAlloc =>
    match s.filealloc with
    | none => some (s.goto p (.returned (-1)))
    | some (rf, s') => some (s'.goto p (.pipeAlloc1 rf))
  | .pipeAlloc1 rf =>
    match s.filealloc with
    | none => some (s.goto p (.undo none [rf]))
    | some (wf, s') => some (s'.goto p (.pipePage rf wf))
  | .pipePage rf wf =>
    match input with
    | none => some (s.goto p (.undo none [rf, wf]))
    | some pi =>
      if s.pipe pi = none then
        some (({ s with pipe := update s.pipe pi (some ⟨true, true⟩) }.setFile rf
          (pipeFile (s.file rf) pi false)).setFile wf (pipeFile (s.file wf) pi true)
          |>.goto p (.pipeFd rf wf pi))
      else none
  | .pipeFd rf wf pi => some (s.pipeFds p rf wf pi)
  | .pipeCopy rf wf pi fd0 fd1 =>
    match input with
    | some _ => some (s.goto p (.returned 0))
    | none =>
      some (((s.setFd p fd0 none).setFd p fd1 none).goto p (.undo (some pi) [rf, wf]))
  | .undo _ [] => some (s.goto p (.returned (-1)))
  | .undo made (f :: fs) =>
    some (s.closing f (fun s' => s'.goto p (.undo made fs))
      fun ff s' => s'.goto p (.undoObject made ff fs))
  | .undoObject made ff fs => some (s.closingObject ff fun s' => s'.goto p (.undo made fs))
  | .closeObject ff => some (s.closingObject ff fun s' => s'.goto p (.returned 0))
  | .forkDup child i =>
    if i < NOFILE then some (s.forkRound p child i)
    else some ((s.goto child (.returned 0)).goto p (.returned (child + 1)))
  | .exitFd i => if i < NOFILE then some (s.exitRound p i) else some (s.goto p .zombie)
  | .exitObject ff _ i =>
    some (s.closingObject ff fun s' => (s'.setFd p i none).goto p (.exitFd (i + 1)))

/-- `sys_open` once it has the inode; a device must have a driver. -/
def sysOpen (s : Ftable) (p : Nat) : Option Opened → Ftable
  | none => s.goto p (.returned (-1))
  | some o =>
    match o.device with
    | none => s.goto p (.openAlloc o)
    | some major =>
      if major < 0 ∨ NDEV ≤ major then s.goto p (.returned (-1)) else s.goto p (.openAlloc o)

def sysDup (s : Ftable) (p : Nat) (fd : Int) : Ftable :=
  match s.argfd p fd with
  | none => s.goto p (.returned (-1))
  | some (_, f) =>
    match s.fdalloc p with
    | none => s.goto p (.returned (-1))
    | some fd' =>
      match (s.setFd p fd' (some f)).filedup f with
      | .error message => s.panic message
      | .ok s' => s'.goto p (.returned fd')

def sysClose (s : Ftable) (p : Nat) (fd : Int) : Ftable :=
  match s.argfd p fd with
  | none => s.goto p (.returned (-1))
  | some (fd, f) =>
    (s.setFd p fd none).closing f (fun s' => s'.goto p (.returned 0))
      fun ff s' => s'.goto p (.closeObject ff)

/-- `fileread` and `filewrite` as far as they look at the entry. -/
def fileAccess (s : Ftable) (p : Nat) (allowed : File → Bool) (message : String) (fd r : Int) :
    Ftable :=
  match s.argfd p fd with
  | none => s.goto p (.returned (-1))
  | some (_, f) =>
    if allowed (s.file f) = false then s.goto p (.returned (-1))
    else if (s.file f).type = .FD_NONE then s.panic message
    else s.goto p (.returned r)

def sysFork (s : Ftable) (p : Nat) : Option Nat → Option Ftable
  | none => some (s.goto p (.returned (-1)))
  | some child =>
    if child < NPROC ∧ s.proc child = .unused then
      some ((s.goto child .embryo).goto p (.forkDup child 0))
    else none

/-- A process that is between system calls begins one. -/
def call (s : Ftable) (p : Nat) (body : Ftable → Option Ftable) : Option Ftable :=
  if p < NPROC then
    match s.proc p with
    | .returned _ => body { s with saved := update s.saved p (s.ofile p) }
    | _ => none
  else none

/-- Nothing happens after a panic. -/
def next (s : Ftable) (e : FileEvent) : Option Ftable :=
  if s.panicked ≠ none then none
  else
    match e with
    | .sysOpen p found => s.call p fun s => some (s.sysOpen p found)
    | .sysDup p fd => s.call p fun s => some (s.sysDup p fd)
    | .sysPipe p => s.call p fun s => some (s.goto p .pipeAlloc)
    | .sysClose p fd => s.call p fun s => some (s.sysClose p fd)
    | .sysRead p fd r => s.call p fun s => some (s.fileAccess p File.readable "fileread" fd r)
    | .sysWrite p fd r => s.call p fun s => some (s.fileAccess p File.writable "filewrite" fd r)
    | .kfork p child => s.call p fun s => s.sysFork p child
    | .kexit p => s.call p fun s => some (s.goto p (.exitFd 0))
    | .reap p => if s.proc p = .zombie then some (s.goto p .unused) else none
    | .step p input => if p < NPROC then s.step p input else none

/-- The table at boot, with the first process. -/
structure Initial (s : Ftable) : Prop where
  file : ∀ f, (s.file f).ref = 0 ∧ (s.file f).type = .FD_NONE
  ofile : ∀ p fd, s.ofile p fd = none
  pipe : ∀ pi, s.pipe pi = none
  proc : ∀ p, s.proc p = .unused ∨ p < NPROC ∧ ∃ r, 0 ≤ r ∧ s.proc p = .returned r
  panicked : s.panicked = none

/-- The states in every interleaving of the system calls. -/
def Reachable : Ftable → Prop := Machine.Reach next (fun _ _ => True) Initial

end Ftable

end EAFITos
