/-
The memory allocator of user programs, `user/umalloc.c`.  The headers lie in memory at the start
of their blocks; an address counts bytes, and `Header*` arithmetic counts headers of 16 bytes.
What `sbrk` answers is an input.  `live` and `core` record, for the statements, the blocks that
`malloc` has handed out and the memory that `sbrk` has.
-/
import EAFITos.Extents
import EAFITos.LinkedPath
import EAFITos.Transition

namespace EAFITos.Umalloc

open Extents LinkedPath

structure Header where
  ptr : Nat
  size : Nat
  deriving DecidableEq, Repr

/-- `freep` is `none` for the null pointer. -/
structure Heap where
  mem : Nat → Header
  freep : Option Nat
  live : List Extent
  core : List Extent

/-- The bytes of so many headers. -/
def bytes (n : Nat) : Nat := n * 16

def setPtr (mem : Nat → Header) (p ptr : Nat) : Nat → Header :=
  Function.update mem p { mem p with ptr }

/-- The assignment `p->s.size = size` of an `uint`. -/
def setSize (mem : Nat → Header) (p size : Nat) : Nat → Header :=
  Function.update mem p { mem p with size := size % 2 ^ 32 }

namespace Heap

/-- A bound for the loops over the free list: each block has a header at least. -/
def rounds (h : Heap) : Nat := total h.core + 2

/-- The loop of `free` ends at `p`. -/
def stops (mem : Nat → Header) (bp p : Nat) : Bool :=
  (bp > p && bp < (mem p).ptr) || (p ≥ (mem p).ptr && (bp > p || bp < (mem p).ptr))

/-- `bp` joins the block behind it, or points to it. -/
def joinNext (mem : Nat → Header) (p bp : Nat) : Nat → Header :=
  if bp + bytes (mem bp).size = (mem p).ptr then
    let mem := setSize mem bp ((mem bp).size + (mem (mem p).ptr).size)
    setPtr mem bp (mem (mem p).ptr).ptr
  else
    setPtr mem bp (mem p).ptr

/-- `p` joins `bp`, or points to it. -/
def joinPrev (mem : Nat → Header) (p bp : Nat) : Nat → Header :=
  if p + bytes (mem p).size = bp then
    let mem := setSize mem p ((mem p).size + (mem bp).size)
    setPtr mem p (mem bp).ptr
  else
    setPtr mem p bp

/-- `free`, with the address of the header.  `none` when the search does not end. -/
def free (h : Heap) (bp : Nat) : Option Heap := do
  let freep ← h.freep
  let p ← follow (fun p => (h.mem p).ptr) (stops h.mem bp) h.rounds freep
  some { h with mem := joinPrev (joinNext h.mem p bp) p bp, freep := some p }

/-- `morecore`, with the number of units it asks for, once `sbrk` has returned `p`. -/
def morecore (h : Heap) (nu p : Nat) : Option Heap :=
  { h with mem := setSize h.mem p nu, core := ⟨p, bytes nu⟩ :: h.core }.free p

/-- The units that `morecore` asks for. -/
def coreUnits (nunits : Nat) : Nat := if nunits < 4096 then 4096 else nunits

/-- Take `nunits` units of the block after `prevp`.  The result is the header of what is taken. -/
def take (h : Heap) (prevp nunits : Nat) : Nat × Heap :=
  let p := (h.mem prevp).ptr
  if (h.mem p).size = nunits then
    (p, { h with mem := setPtr h.mem prevp (h.mem p).ptr, freep := some prevp })
  else
    let mem := setSize h.mem p ((h.mem p).size - nunits)
    let p := p + bytes (mem p).size
    (p, { h with mem := setSize mem p nunits, freep := some prevp })

/-- The loop of `malloc`: once around the list, and again after each `morecore`.  `answers` are the
results of the calls of `sbrk`, which fails after the last one.  The outer `none` is a loop that
does not end, the inner one is the null pointer. -/
def search (nunits : Nat) : List (Option Nat) → Heap → Option (Option Nat × Heap)
  | answers, h => do
    let freep ← h.freep
    match ← scan (fun p => (h.mem p).ptr) (fun p => nunits ≤ (h.mem p).size) freep h.rounds
        freep with
    | some prevp =>
      let (p, h) := h.take prevp nunits
      some (some p, h)
    | none =>
      match answers with
      | some p :: rest => do
        let h ← h.morecore (coreUnits nunits) p
        search nunits rest h
      | _ => some (none, h)

/-- The units for a request. -/
def units (nbytes : Nat) : Nat := ((nbytes + 16 - 1) / 16 + 1) % 2 ^ 32

/-- The first lines of `malloc`: an empty list consists of `base` alone. -/
def start (base : Nat) (h : Heap) : Heap :=
  match h.freep with
  | some _ => h
  | none => { h with mem := setSize (setPtr h.mem base base) base 0, freep := some base }

/-- `malloc`: the header of the block and the new heap. -/
def malloc (base nbytes : Nat) (answers : List (Option Nat)) (h : Heap) :
    Option (Option Nat × Heap) :=
  search (units nbytes) answers (h.start base)

end Heap

/-- A call of the allocator, or writes of the program to the memory it was given. -/
inductive HeapCall where
  | malloc (nbytes : Nat) (answers : List (Option Nat))
  | free (bp : Nat)
  | write (mem : Nat → Header)

namespace Heap

/-- The program got the block at `p`. -/
def record (p : Option Nat) (h : Heap) : Heap :=
  match p with
  | some p => { h with live := ⟨p, bytes (h.mem p).size⟩ :: h.live }
  | none => h

/-- The program gives the block at `bp` back. -/
def forget (bp : Nat) (h : Heap) : Heap :=
  { h with live := h.live.eraseP fun b => b.start = bp }

/-- One call. -/
def next (base : Nat) (h : Heap) : HeapCall → Option Heap
  | .malloc nbytes answers => (h.malloc base nbytes answers).map fun (p, h) => h.record p
  | .free bp => (h.free bp).map (forget bp)
  | .write mem => some { h with mem }

/-- The memory that the program may write: its blocks behind their headers. -/
def Payload (h : Heap) (x : Nat) : Prop :=
  ∃ b ∈ h.live, b.start + 16 ≤ x ∧ x < b.stop

/-- `sbrk` returns memory behind `top`, and each time behind what it returned before. -/
def Fresh (len : Nat) : Nat → List (Option Nat) → Prop
  | _, [] => True
  | top, none :: rest => Fresh len top rest
  | top, some p :: rest => top ≤ p ∧ Fresh len (p + len) rest

/-- Behind `base` and all memory from `sbrk`. -/
def Above (base : Nat) (h : Heap) (top : Nat) : Prop :=
  base + 16 ≤ top ∧ ∀ b ∈ h.core, b.stop ≤ top

/-- Requests stay below the bound, `sbrk` returns fresh memory, blocks are freed that were handed
out, and the program writes to its own memory. -/
def Proper (base : Nat) (h : Heap) : HeapCall → Prop
  | .malloc nbytes answers => nbytes < 2 ^ 31 - 2 ^ 17 ∧
      ∃ top, h.Above base top ∧ Fresh (bytes (coreUnits (units nbytes))) top answers
  | .free bp => ∃ b ∈ h.live, b.start = bp
  | .write mem => ∀ p, (∀ x, p ≤ x → x < p + 16 → ¬ h.Payload x) → mem p = h.mem p

end Heap

end EAFITos.Umalloc
