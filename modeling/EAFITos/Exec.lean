/-
`kexec` of `kernel/exec.c` and the system call in front of it.  A file is the
list of its bytes, and `namei` a function from path names to files.
-/
import EAFITos.Sysproc

namespace EAFITos

/-- What `readi` delivers of a file. -/
def readi (file : List UInt8) (off n : Nat) : List UInt8 :=
  if off > file.length ∨ (off + n) % 2 ^ 32 < off then []
  else (file.drop off).take n

/-- The number that the bytes at `off` stand for. -/
def field (bytes : List UInt8) (off width : Nat) : Nat :=
  ByteMem.loadLE (fun i => bytes.getD i 0) off width

def elfhdrSize : Nat := 64
def proghdrSize : Nat := 56
def ELF_MAGIC : Nat := 0x464C457F
def ELF_PROG_LOAD : Nat := 1

/-- `struct elfhdr`, the fields in use. -/
structure Elfhdr where
  magic : Nat
  entry : Nat
  phoff : Nat
  phnum : Nat

def parseElfhdr (bytes : List UInt8) : Elfhdr where
  magic := field bytes 0 4
  entry := field bytes 24 8
  phoff := field bytes 32 8
  phnum := field bytes 56 2

/-- `struct proghdr`, the fields in use. -/
structure Proghdr where
  type : Nat
  flags : Nat
  off : Nat
  vaddr : Nat
  filesz : Nat
  memsz : Nat

def parseProghdr (bytes : List UInt8) : Proghdr where
  type := field bytes 0 4
  flags := field bytes 4 4
  off := field bytes 8 8
  vaddr := field bytes 16 8
  filesz := field bytes 32 8
  memsz := field bytes 40 8

def flags2perm (flags : Nat) : Nat :=
  (if flags % 2 = 1 then PTE_X else 0) ||| (if flags / 2 % 2 = 1 then PTE_W else 0)

/-- The loop of `loadseg` over the `n` pages from offset `i` on. -/
def loadsegLoop (pagetable va : Nat) (file : List UInt8) (offset sz : Nat) :
    Nat → Nat → Prog Phys Int
  | 0, _ => pure 0
  | n + 1, i => do
    match ← walkaddr pagetable ((va + i) % U64) with
    | none => Prog.panic "loadseg: address should exist"
    | some pa => do
      let len := min (sz - i) PGSIZE
      let bytes := readi file ((offset + i) % 2 ^ 32) len
      Prog.update fun s => { s with mem := s.mem.storeBytes pa bytes }
      if bytes.length ≠ len then pure (-1)
      else loadsegLoop pagetable va file offset sz n (i + PGSIZE)

/-- `offset` and `sz` are `uint` parameters. -/
def loadseg (pagetable va : Nat) (file : List UInt8) (offset sz : Nat) : Prog Phys Int :=
  loadsegLoop pagetable va file (offset % 2 ^ 32) (sz % 2 ^ 32)
    (pagesBelow 0 (sz % 2 ^ 32)) 0

/-- The loop over the program headers, with `n` of them still to be read: the size
of the image, or `error` with the size reached when something was bad. -/
def loadProgram (pagetable : Nat) (file : List UInt8) :
    Nat → Nat → Nat → Prog Phys (Except Nat Nat)
  | 0, _, sz => pure (.ok sz)
  | n + 1, off, sz =>
    let bytes := readi file off proghdrSize
    let ph := parseProghdr bytes
    let next := (off + proghdrSize) % 2 ^ 32
    if bytes.length ≠ proghdrSize then pure (.error sz)
    else if ph.type ≠ ELF_PROG_LOAD then loadProgram pagetable file n next sz
    else if ph.memsz < ph.filesz then pure (.error sz)
    else if (ph.vaddr + ph.memsz) % U64 < ph.vaddr then pure (.error sz)
    else if ph.vaddr % PGSIZE ≠ 0 then pure (.error sz)
    else do
      let sz1 ← uvmalloc pagetable sz ((ph.vaddr + ph.memsz) % U64) (flags2perm ph.flags)
      if sz1 = 0 then pure (.error sz)
      else if (← loadseg pagetable ph.vaddr file ph.off ph.filesz) < 0 then
        pure (.error sz1)
      else loadProgram pagetable file n next sz1

/-- The loop that copies the argument strings; the result is `sp` and the
addresses of the strings. -/
def pushArgs (psz ppagetable pagetable stackbase : Nat) :
    List (List UInt8) → List Nat → Nat → Prog Phys (Option (Nat × List Nat))
  | [], ustack, sp => pure (some (sp, ustack))
  | str :: rest, ustack, sp =>
    if ustack.length ≥ MAXARG then pure none
    else
      let top := sub64 sp (str.length + 1)
      let sp' := top - top % 16
      if sp' < stackbase then pure none
      else do
        if (← copyout psz ppagetable pagetable sp' (str ++ [0])) < 0 then pure none
        else pushArgs psz ppagetable pagetable stackbase rest (ustack ++ [sp']) sp'

/-- The user stack: a guard page and a stack page above the program, with the
arguments on it.  The result is `sz`, `sp` and `argc`, or `error` with the size. -/
def buildStack (psz ppagetable pagetable : Nat) (argv : List (List UInt8)) (sz : Nat) :
    Prog Phys (Except Nat (Nat × Nat × Nat)) := do
  let sz := PGROUNDUP sz
  let sz1 ← uvmalloc pagetable sz ((sz + (USERSTACK + 1) * PGSIZE) % U64) PTE_W
  if sz1 = 0 then pure (.error sz)
  else do
    uvmclear pagetable (sub64 sz1 ((USERSTACK + 1) * PGSIZE))
    let stackbase := sub64 sz1 (USERSTACK * PGSIZE)
    match ← pushArgs psz ppagetable pagetable stackbase argv [] sz1 with
    | none => pure (.error sz1)
    | some (sp, ustack) =>
      let top := sub64 sp ((ustack.length + 1) * 8)
      let sp' := top - top % 16
      if sp' < stackbase then pure (.error sz1)
      else do
        if (← copyout psz ppagetable pagetable sp'
            ((ustack ++ [0]).flatMap (leBytes 8))) < 0 then
          pure (.error sz1)
        else pure (.ok (sz1, sp', ustack.length))

/-- The new image in a page table that has only the trampoline and the
trapframe. -/
def buildImage (psz ppagetable pagetable : Nat) (file : List UInt8) (elf : Elfhdr)
    (argv : List (List UInt8)) : Prog Phys (Except Nat (Nat × Nat × Nat)) := do
  match ← loadProgram pagetable file elf.phnum (elf.phoff % 2 ^ 32) 0 with
  | .error sz => pure (.error sz)
  | .ok sz => buildStack psz ppagetable pagetable argv sz

def kexec (i : Nat) (file : Option (List UInt8)) (argv : List (List UInt8)) :
    Prog Kernel Int := do
  match file with
  | none => pure (-1)
  | some file =>
    let header := readi file 0 elfhdrSize
    let elf := parseElfhdr header
    if header.length ≠ elfhdrSize then pure (-1)
    else if elf.magic ≠ ELF_MAGIC then pure (-1)
    else do
      let p ← getProc i
      match ← onPhys (procPagetable p.trapframe) with
      | none => pure (-1)
      | some pagetable => do
        match ← onPhys (buildImage p.sz p.pagetable pagetable file elf argv) with
        | .error sz => do
          onPhys (procFreepagetable pagetable sz)
          pure (-1)
        | .ok (sz, sp, argc) => do
          onPhys (storePte (p.trapframe + a1Offset) sp)
          setProc i fun p => { p with pagetable := pagetable, sz := sz }
          onPhys (storePte (p.trapframe + epcOffset) elf.entry)
          onPhys (storePte (p.trapframe + spOffset) sp)
          onPhys (procFreepagetable p.pagetable p.sz)
          pure argc

/-- `fetchaddr`: the `uint64` at a user address. -/
def fetchaddr (i addr : Nat) : Prog Kernel (Option Nat) := do
  let p ← getProc i
  if addr ≥ p.sz ∨ (addr + 8) % U64 > p.sz then pure none
  else do
    match ← onPhys (copyin p.sz p.pagetable p.pagetable addr 8) with
    | none => pure none
    | some bytes => pure (some (field bytes 0 8))

def fetchstr (i addr max : Nat) : Prog Kernel (Option (List UInt8)) := do
  let p ← getProc i
  onPhys (copyinstr p.pagetable addr max)

/-- The pages allocated for arguments, and the strings when all were read. -/
structure ArgBufs where
  pages : List Nat
  strs : Option (List (List UInt8))

/-- The loop of `sys_exec` that fetches the arguments, with room for `n` more. -/
def fetchArgv (i uargv : Nat) : Nat → List Nat → List (List UInt8) → Prog Kernel ArgBufs
  | 0, pages, _ => pure ⟨pages, none⟩
  | n + 1, pages, strs => do
    match ← fetchaddr i ((uargv + 8 * pages.length) % U64) with
    | none => pure ⟨pages, none⟩
    | some uarg =>
      if uarg = 0 then pure ⟨pages, some strs⟩
      else do
        match ← onPhys kalloc with
        | none => pure ⟨pages, none⟩
        | some page => do
          match ← fetchstr i uarg PGSIZE with
          | none => pure ⟨pages ++ [page], none⟩
          | some str => do
            onPhys (Prog.update fun s =>
              { s with mem := s.mem.storeBytes page (str ++ [0]) })
            fetchArgv i uargv n (pages ++ [page]) (strs ++ [str])

def MAXPATH : Nat := 128

def sysExec (namei : List UInt8 → Option (List UInt8)) (i upath uargv : Nat) :
    Prog Kernel Int := do
  match ← fetchstr i upath MAXPATH with
  | none => pure (-1)
  | some path => do
    let bufs ← fetchArgv i uargv MAXARG [] []
    match bufs.strs with
    | none => do
      onPhys (Prog.forEach kfree bufs.pages)
      pure (-1)
    | some argv => do
      let ret ← kexec i (namei path) argv
      onPhys (Prog.forEach kfree bufs.pages)
      pure ret

end EAFITos
