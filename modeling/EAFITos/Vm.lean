/-
The page-table code of `kernel/vm.c`.  Page tables live in physical memory as
64-bit entries; a `pagetable` is the physical address of a root page and a
`pte_t *` the physical address of an entry.
-/
import EAFITos.PhysMem

namespace EAFITos

/-- The loop of `walk`, from `level` down to the last table. -/
def walkLoop (va : Nat) (alloc : Bool) : Nat → Nat → Prog Phys (Option Nat)
  | 0, pagetable => pure (some (pagetable + 8 * PX 0 va))
  | level + 1, pagetable => do
    let pte ← loadPte (pagetable + 8 * PX (level + 1) va)
    if hasFlag pte PTE_V then
      walkLoop va alloc level (PTE2PA pte)
    else if alloc = false then
      pure none
    else do
      match ← kalloc with
      | none => pure none
      | some page => do
        memset page 0 PGSIZE
        storePte (pagetable + 8 * PX (level + 1) va) (PA2PTE page ||| PTE_V)
        walkLoop va alloc level page

/-- The address of the entry for `va`, or `none` for a null pointer. -/
def walk (pagetable va : Nat) (alloc : Bool) : Prog Phys (Option Nat) :=
  if va ≥ MAXVA then Prog.panic "walk"
  else walkLoop va alloc 2 pagetable

/-- The physical address of a user page, or `none` where the source returns 0. -/
def walkaddr (pagetable va : Nat) : Prog Phys (Option Nat) :=
  if va ≥ MAXVA then pure none
  else do
    match ← walk pagetable va false with
    | none => pure none
    | some slot => do
      let pte ← loadPte slot
      if hasFlag pte PTE_V = false then pure none
      else if hasFlag pte PTE_U = false then pure none
      else pure (some (PTE2PA pte))

/-- The loop of `mappages` over the `n` pages still to be mapped. -/
def mappagesLoop (pagetable perm : Nat) : Nat → Nat → Nat → Prog Phys Int
  | 0, _, _ => pure 0
  | n + 1, a, pa => do
    match ← walk pagetable a true with
    | none => pure (-1)
    | some slot => do
      let pte ← loadPte slot
      if hasFlag pte PTE_V then
        Prog.panic "mappages: remap"
      else do
        storePte slot (mkPte pa perm)
        mappagesLoop pagetable perm n (a + PGSIZE) (pa + PGSIZE)

def mappages (pagetable va size pa perm : Nat) : Prog Phys Int :=
  if va % PGSIZE ≠ 0 then Prog.panic "mappages: va not aligned"
  else if size % PGSIZE ≠ 0 then Prog.panic "mappages: size not aligned"
  else if size = 0 then Prog.panic "mappages: size"
  else mappagesLoop pagetable perm (size / PGSIZE) va pa

def uvmcreate : Prog Phys (Option Nat) := do
  match ← kalloc with
  | none => pure none
  | some pagetable => do
    memset pagetable 0 PGSIZE
    pure (some pagetable)

/-- Remove `n` pages of mappings from `a` on, freeing them if asked to. -/
def uvmunmapLoop (pagetable : Nat) (doFree : Bool) : Nat → Nat → Prog Phys PUnit
  | 0, _ => pure ⟨⟩
  | n + 1, a => do
    match ← walk pagetable a false with
    | none => uvmunmapLoop pagetable doFree n (a + PGSIZE)
    | some slot => do
      let pte ← loadPte slot
      if hasFlag pte PTE_V = false then
        uvmunmapLoop pagetable doFree n (a + PGSIZE)
      else do
        if doFree then kfree (PTE2PA pte) else pure ⟨⟩
        storePte slot 0
        uvmunmapLoop pagetable doFree n (a + PGSIZE)

def uvmunmap (pagetable va npages : Nat) (doFree : Bool) : Prog Phys PUnit :=
  if va % PGSIZE ≠ 0 then Prog.panic "uvmunmap: not aligned"
  else uvmunmapLoop pagetable doFree npages va

def uvmdealloc (pagetable oldsz newsz : Nat) : Prog Phys Nat :=
  if newsz ≥ oldsz then pure oldsz
  else if PGROUNDUP newsz < PGROUNDUP oldsz then do
    uvmunmap pagetable (PGROUNDUP newsz)
      ((PGROUNDUP oldsz - PGROUNDUP newsz) / PGSIZE) true
    pure newsz
  else pure newsz

/-- The loop of `uvmalloc`, with `n` pages below `newsz` still to be mapped;
a result 0 is the failure of the source. -/
def uvmallocLoop (pagetable oldsz newsz xperm : Nat) : Nat → Nat → Prog Phys Nat
  | 0, _ => pure newsz
  | n + 1, a => do
    match ← kalloc with
    | none => do
      let _ ← uvmdealloc pagetable a oldsz
      pure 0
    | some mem => do
      memset mem 0 PGSIZE
      if (← mappages pagetable a PGSIZE mem (PTE_R ||| PTE_U ||| xperm)) ≠ 0 then do
        kfree mem
        let _ ← uvmdealloc pagetable a oldsz
        pure 0
      else
        uvmallocLoop pagetable oldsz newsz xperm n (a + PGSIZE)

/-- The number of pages `a = start, start + PGSIZE, ..` below `stop`. -/
def pagesBelow (start stop : Nat) : Nat := (stop - start + 4095) / 4096

def uvmalloc (pagetable oldsz newsz xperm : Nat) : Prog Phys Nat :=
  if newsz < oldsz then pure oldsz
  else uvmallocLoop pagetable (PGROUNDUP oldsz) newsz xperm
    (pagesBelow (PGROUNDUP oldsz) newsz) (PGROUNDUP oldsz)

/-- One round of the loop of `freewalk`: entry `i` of the table. -/
def freewalkEntry (freeTable : Nat → Prog Phys PUnit) (pagetable i : Nat) :
    Prog Phys PUnit := do
  let pte ← loadPte (pagetable + 8 * i)
  if hasFlag pte PTE_V && !hasFlag pte (PTE_R ||| PTE_W ||| PTE_X) then do
    freeTable (PTE2PA pte)
    storePte (pagetable + 8 * i) 0
  else if hasFlag pte PTE_V then
    Prog.panic "freewalk: leaf"
  else pure ⟨⟩

/-- Recursively free page-table pages; the first argument bounds the depth of
the recursion. -/
def freewalk : Nat → Nat → Prog Phys PUnit
  | 0, _ => Prog.stuck
  | depth + 1, pagetable => do
    Prog.forEach (freewalkEntry (freewalk depth) pagetable) (List.range 512)
    kfree pagetable

def uvmfree (pagetable sz : Nat) : Prog Phys PUnit := do
  if sz > 0 then
    uvmunmap pagetable 0 (PGROUNDUP sz / PGSIZE) true
  else pure ⟨⟩
  freewalk 3 pagetable

/-- The loop of `uvmcopy` over the `n` pages from `i` on. -/
def uvmcopyLoop (old new : Nat) : Nat → Nat → Prog Phys Int
  | 0, _ => pure 0
  | n + 1, i => do
    match ← walk old i false with
    | none => uvmcopyLoop old new n (i + PGSIZE)
    | some slot => do
      let pte ← loadPte slot
      if hasFlag pte PTE_V = false then
        uvmcopyLoop old new n (i + PGSIZE)
      else do
        match ← kalloc with
        | none => do
          uvmunmap new 0 (i / PGSIZE) true
          pure (-1)
        | some mem => do
          memmove mem (PTE2PA pte) PGSIZE
          if (← mappages new i PGSIZE mem (PTE_FLAGS pte)) ≠ 0 then do
            kfree mem
            uvmunmap new 0 (i / PGSIZE) true
            pure (-1)
          else
            uvmcopyLoop old new n (i + PGSIZE)

def uvmcopy (old new sz : Nat) : Prog Phys Int :=
  uvmcopyLoop old new (pagesBelow 0 sz) 0

/-- Mark a page inaccessible to the user: `*pte &= ~PTE_U`. -/
def uvmclear (pagetable va : Nat) : Prog Phys PUnit := do
  match ← walk pagetable va false with
  | none => Prog.panic "uvmclear"
  | some slot => do
    let pte ← loadPte slot
    storePte slot (pte - (pte &&& PTE_U))

def ismapped (pagetable va : Nat) : Prog Phys Bool := do
  match ← walk pagetable va false with
  | none => pure false
  | some slot => do
    let pte ← loadPte slot
    pure (hasFlag pte PTE_V)

/-- `vmfault` for the process with size `psz` and page table `ppagetable`;
`none` stands for the result 0. -/
def vmfault (psz ppagetable pagetable va : Nat) : Prog Phys (Option Nat) :=
  if va ≥ psz then pure none
  else do
    if ← ismapped pagetable (PGROUNDDOWN va) then pure none
    else do
      match ← kalloc with
      | none => pure none
      | some mem => do
        memset mem 0 PGSIZE
        if (← mappages ppagetable (PGROUNDDOWN va) PGSIZE mem
            (PTE_W ||| PTE_U ||| PTE_R)) ≠ 0 then do
          kfree mem
          pure none
        else pure (some mem)

/-- `pa0` of `copyin` and `copyout`: the page of `va0`, materialised if need be. -/
def userPage (psz ppagetable pagetable va0 : Nat) : Prog Phys (Option Nat) := do
  match ← walkaddr pagetable va0 with
  | some pa0 => pure (some pa0)
  | none => vmfault psz ppagetable pagetable va0

/-- One round of the loop of `copyout`: the part of `src` that goes to the page of
`dstva`; `next` is the rest of the loop. -/
def copyoutPage (psz ppagetable pagetable dstva : Nat) (src : List UInt8)
    (next : Nat → List UInt8 → Prog Phys Int) : Prog Phys Int :=
  let va0 := PGROUNDDOWN dstva
  if va0 ≥ MAXVA then pure (-1)
  else do
    match ← userPage psz ppagetable pagetable va0 with
    | none => pure (-1)
    | some pa0 => do
      match ← walk pagetable va0 false with
      | none => Prog.stuck
      | some slot => do
        let pte ← loadPte slot
        if hasFlag pte PTE_W = false then pure (-1)
        else do
          let n := min (PGSIZE - (dstva - va0)) src.length
          Prog.update fun s =>
            { s with mem := s.mem.storeBytes (pa0 + (dstva - va0)) (src.take n) }
          next (va0 + PGSIZE) (src.drop n)

/-- The loop of `copyout`; the bound is the number of bytes to copy. -/
def copyoutLoop (psz ppagetable pagetable : Nat) :
    Nat → Nat → List UInt8 → Prog Phys Int
  | _, _, [] => pure 0
  | 0, _, _ :: _ => Prog.stuck
  | fuel + 1, dstva, b :: src =>
    copyoutPage psz ppagetable pagetable dstva (b :: src)
      (copyoutLoop psz ppagetable pagetable fuel)

def copyout (psz ppagetable pagetable dstva : Nat) (src : List UInt8) : Prog Phys Int :=
  copyoutLoop psz ppagetable pagetable src.length dstva src

/-- One round of the loop of `copyin`: the bytes on the page of `srcva` and then
those that `next` delivers. -/
def copyinPage (psz ppagetable pagetable srcva len : Nat)
    (next : Nat → Nat → Prog Phys (Option (List UInt8))) :
    Prog Phys (Option (List UInt8)) := do
  let va0 := PGROUNDDOWN srcva
  match ← userPage psz ppagetable pagetable va0 with
  | none => pure none
  | some pa0 => do
    let n := min (PGSIZE - (srcva - va0)) len
    let bytes ← Prog.read fun s => s.mem.loadBytes (pa0 + (srcva - va0)) n
    match ← next (va0 + PGSIZE) (len - n) with
    | none => pure none
    | some rest => pure (some (bytes ++ rest))

/-- The loop of `copyin` for `len` bytes; `none` stands for the result -1. -/
def copyinLoop (psz ppagetable pagetable : Nat) :
    Nat → Nat → Nat → Prog Phys (Option (List UInt8))
  | _, _, 0 => pure (some [])
  | 0, _, _ + 1 => Prog.stuck
  | fuel + 1, srcva, len + 1 =>
    copyinPage psz ppagetable pagetable srcva (len + 1)
      (copyinLoop psz ppagetable pagetable fuel)

def copyin (psz ppagetable pagetable srcva len : Nat) : Prog Phys (Option (List UInt8)) :=
  copyinLoop psz ppagetable pagetable len srcva len

/-- The bytes up to the first NUL, if there is one. -/
def upToNul : List UInt8 → Option (List UInt8)
  | [] => none
  | b :: rest => if b = 0 then some [] else (upToNul rest).map (b :: ·)

/-- The loop of `copyinstr`: the string without its NUL, or `none` for -1. -/
def copyinstrLoop (pagetable : Nat) : Nat → Nat → Nat → Prog Phys (Option (List UInt8))
  | _, _, 0 => pure none
  | 0, _, _ + 1 => Prog.stuck
  | fuel + 1, srcva, room + 1 => do
    let va0 := PGROUNDDOWN srcva
    match ← walkaddr pagetable va0 with
    | none => pure none
    | some pa0 => do
      let n := min (PGSIZE - (srcva - va0)) (room + 1)
      let bytes ← Prog.read fun s => s.mem.loadBytes (pa0 + (srcva - va0)) n
      match upToNul bytes with
      | some str => pure (some str)
      | none => do
        match ← copyinstrLoop pagetable fuel (va0 + PGSIZE) (room + 1 - n) with
        | none => pure none
        | some rest => pure (some (bytes ++ rest))

def copyinstr (pagetable srcva max : Nat) : Prog Phys (Option (List UInt8)) :=
  copyinstrLoop pagetable max srcva max

end EAFITos
