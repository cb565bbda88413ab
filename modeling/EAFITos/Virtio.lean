/-
The request queue of `kernel/virtio_disk.c`: processes in `virtio_disk_rw`, the interrupt
handler and the device.  The driver goes from one operation on `disk.vdisk_lock` to the
next, except that the device may act between any two of its writes to the rings.
-/
import EAFITos.RingBuffer
import EAFITos.Transition
import EAFITos.Bio

namespace EAFITos

open Function List

def NUM : Nat := 8

/-- The modulus of the type `uint16`. -/
def U16 : Nat := 2 ^ 16

def VRING_DESC_F_NEXT : Nat := 1
def VRING_DESC_F_WRITE : Nat := 2
def VIRTIO_BLK_T_IN : Nat := 0
def VIRTIO_BLK_T_OUT : Nat := 1

/-- What a descriptor points to: a command header, the data of a buffer or a status byte. -/
inductive DescAddr where
  | null
  | op (i : Nat)
  | data (b : Nat)
  | status (i : Nat)
  deriving DecidableEq, Repr

structure VirtqDesc where
  addr : DescAddr
  len : Nat
  flags : Nat
  next : Nat
  deriving DecidableEq, Repr

structure VirtioBlkReq where
  type : Nat
  reserved : Nat
  sector : Nat
  deriving DecidableEq, Repr

/-- The descriptors of a request: `idx[0]`, `idx[1]` and `idx[2]`. -/
structure DescIdx where
  head : Nat
  data : Nat
  status : Nat
  deriving DecidableEq, Repr

/-- Where a process stands in `virtio_disk_rw` on the buffer `b`.  From its submission on, a
request has a number `n`. -/
inductive VirtioPc where
  | idle
  /-- About to acquire `disk.vdisk_lock`. -/
  | enter (b : Nat) (write : Bool)
  /-- About to allocate descriptors, SLEEPING on `&disk.free[0]`, and woken. -/
  | alloc (b : Nat) (write : Bool)
  | allocAsleep (b : Nat) (write : Bool)
  | allocWoken (b : Nat) (write : Bool)
  /-- About to fill in the descriptors, and about to advance `disk.avail->idx`. -/
  | format (b : Nat) (write : Bool) (idx : DescIdx)
  | publish (b : Nat) (idx : DescIdx) (n : Nat)
  /-- At the head of the last loop, SLEEPING on the buffer, and woken. -/
  | wait (b : Nat) (idx : DescIdx) (n : Nat)
  | asleep (b : Nat) (idx : DescIdx) (n : Nat)
  | woken (b : Nat) (idx : DescIdx) (n : Nat)
  /-- About to release `disk.vdisk_lock`, and returned. -/
  | unlock (n : Nat)
  | returned (n : Nat)
  deriving DecidableEq, Repr

/-- Who holds `disk.vdisk_lock`. -/
inductive VirtioHolder where
  | proc (p : Nat)
  | intr
  deriving DecidableEq, Repr

/-- The buffer of a call in progress. -/
def VirtioPc.call : VirtioPc → Option Nat
  | .enter b _ | .alloc b _ | .allocAsleep b _ | .allocWoken b _ | .format b _ _ => some b
  | .publish b _ _ | .wait b _ _ | .asleep b _ _ | .woken b _ _ => some b
  | _ => none

/-- `disk`, the buffers, the processes and the device. -/
structure Virtio where
  free : Nat → Bool
  desc : Nat → VirtqDesc
  ops : Nat → VirtioBlkReq
  infoB : Nat → Option Nat
  infoStatus : Nat → UInt8
  /-- `avail->ring`, filled by the driver at `avail->idx` and emptied by the device. -/
  avail : RingBuffer Nat
  /-- The chains that the device has taken from the ring and not completed. -/
  pending : List Nat
  /-- `used->ring`, filled by the device at `used->idx` and emptied at `disk.used_idx`. -/
  used : RingBuffer Nat
  /-- `b->disk` and `b->blockno`. -/
  bufDisk : Nat → Bool
  blockno : Nat → Nat
  lock : Option VirtioHolder
  proc : Nat → VirtioPc
  panicked : Option String
  /-- History: the number of the next request, and of the last one with a given head. -/
  serial : Nat
  serialOf : Nat → Nat
  /-- History: the requests that the device has completed. -/
  completed : Nat → Bool
  /-- History: the heads that the driver has submitted, that the device has taken and has
  completed, and that the interrupt handler has processed. -/
  submitted : List Nat
  accepted : List Nat
  completions : List Nat
  processed : List Nat

inductive VirtioEvent where
  | virtioDiskRw (p b : Nat) (write : Bool)
  | step (p : Nat)
  | kkill (p : Nat)
  /-- The interrupt handler begins, and goes on. -/
  | intr
  | intrStep
  /-- The device takes a chain from the ring, and completes one that it has taken. -/
  | take
  | complete (i : Nat)
  deriving DecidableEq, Repr

namespace Virtio

/-- The process `p` goes on at `pc`. -/
def goto (s : Virtio) (p : Nat) (pc : VirtioPc) : Virtio :=
  { s with proc := update s.proc p pc }

def panic (s : Virtio) (message : String) : Virtio := { s with panicked := some message }

/-- `wakeup(&disk.free[0])`. -/
def wakeFree (s : Virtio) : Virtio :=
  { s with proc := fun q =>
      match s.proc q with
      | .allocAsleep b write => .allocWoken b write
      | pc => pc }

/-- `wakeup(b)`. -/
def wakeBuf (s : Virtio) (b : Nat) : Virtio :=
  { s with proc := fun q =>
      match s.proc q with
      | .asleep b' idx n => if b' = b then .woken b' idx n else .asleep b' idx n
      | pc => pc }

def allocDesc (s : Virtio) : Option (Nat × Virtio) :=
  ((range NUM).find? s.free).map fun i =>
    (i, { s with free := update s.free i false })

def freeDesc (s : Virtio) (i : Nat) : Except String Virtio :=
  if NUM ≤ i then .error "free_desc 1"
  else if s.free i then .error "free_desc 2"
  else .ok { s with
    desc := update s.desc i ⟨.null, 0, 0, 0⟩
    free := update s.free i true }.wakeFree

/-- The loop of `free_chain`.  Every round frees a descriptor that was not free, so it ends
within `NUM` rounds or panics. -/
def freeChain : Nat → Virtio → Nat → Except String Virtio
  | 0, s, _ => .ok s
  | fuel + 1, s, i => do
    let flag := (s.desc i).flags
    let nxt := (s.desc i).next
    let s ← s.freeDesc i
    if flag &&& VRING_DESC_F_NEXT ≠ 0 then freeChain fuel s nxt else .ok s

/-- The three rounds of `alloc3_desc`, which gives back what it has got when one fails. -/
def alloc3Desc (s : Virtio) : Except String (Option DescIdx × Virtio) :=
  match s.allocDesc with
  | none => .ok (none, s)
  | some (i0, s0) =>
    match s0.allocDesc with
    | none => (s0.freeDesc i0).map fun s' => (none, s')
    | some (i1, s1) =>
      match s1.allocDesc with
      | none => ((s1.freeDesc i0).bind fun s' => s'.freeDesc i1).map fun s' => (none, s')
      | some (i2, s2) => .ok (some ⟨i0, i1, i2⟩, s2)

/-- The request is written to the descriptors and the free slot of `avail->ring`. -/
def format (s : Virtio) (b : Nat) (write : Bool) (idx : DescIdx) : Virtio :=
  { s with
    ops := update s.ops idx.head
      ⟨if write then VIRTIO_BLK_T_OUT else VIRTIO_BLK_T_IN, 0,
        s.blockno b * (BSIZE / 512) % U32⟩
    desc := update (update (update s.desc
      idx.head ⟨.op idx.head, 16, VRING_DESC_F_NEXT, idx.data⟩)
      idx.data ⟨.data b, BSIZE,
        (if write then 0 else VRING_DESC_F_WRITE) ||| VRING_DESC_F_NEXT, idx.status⟩)
      idx.status ⟨.status idx.head, 1, VRING_DESC_F_WRITE, 0⟩
    infoStatus := update s.infoStatus idx.head 0xff
    bufDisk := update s.bufDisk b true
    infoB := update s.infoB idx.head (some b)
    avail := { s.avail with data := update s.avail.data (s.avail.tail % NUM) idx.head }
    serial := s.serial + 1
    serialOf := update s.serialOf idx.head s.serial }

/-- `disk.avail->idx += 1`. -/
def publish (s : Virtio) (idx : DescIdx) : Virtio :=
  { s with
    avail := { s.avail with tail := (s.avail.tail + 1) % U16 }
    submitted := s.submitted ++ [idx.head] }

/-- The next step of process `p`, if it is not waiting for the lock or asleep. -/
def step (s : Virtio) (p : Nat) : Option Virtio :=
  match s.proc p with
  | .idle | .returned _ | .allocAsleep _ _ | .asleep _ _ _ => none
  | .enter b write | .allocWoken b write =>
    if s.lock = none then some ({ s with lock := some (.proc p) }.goto p (.alloc b write))
    else none
  | .alloc b write =>
    match s.alloc3Desc with
    | .error message => some (s.panic message)
    | .ok (none, s') => some ({ s' with lock := none }.goto p (.allocAsleep b write))
    | .ok (some idx, s') => some (s'.goto p (.format b write idx))
  | .format b write idx => some ((s.format b write idx).goto p (.publish b idx s.serial))
  | .publish b idx n => some ((s.publish idx).goto p (.wait b idx n))
  | .wait b idx n =>
    if s.bufDisk b then some ({ s with lock := none }.goto p (.asleep b idx n))
    else
      match { s with infoB := update s.infoB idx.head none }.freeChain (NUM + 1)
        idx.head with
      | .error message => some (s.panic message)
      | .ok s' => some (s'.goto p (.unlock n))
  | .woken b idx n =>
    if s.lock = none then some ({ s with lock := some (.proc p) }.goto p (.wait b idx n))
    else none
  | .unlock n => some ({ s with lock := none }.goto p (.returned n))

/-- A process begins a call on a buffer on which there is no other call. -/
def begin (s : Virtio) (p b : Nat) (write : Bool) : Option Virtio :=
  match s.proc p with
  | .idle | .returned _ =>
    if (range NPROC).all fun q => (s.proc q).call ≠ some b then
      some (s.goto p (.enter b write))
    else none
  | _ => none

/-- `kkill` wakes a process that sleeps. -/
def kkill (s : Virtio) (p : Nat) : Virtio :=
  match s.proc p with
  | .allocAsleep b write => s.goto p (.allocWoken b write)
  | .asleep b idx n => s.goto p (.woken b idx n)
  | _ => s

/-- A round of the loop of `virtio_disk_intr`.  A null buffer would be a kernel fault. -/
def intrStep (s : Virtio) : Virtio :=
  if s.used.head ≠ s.used.tail then
    let id := s.used.data (s.used.head % NUM)
    if s.infoStatus id ≠ 0 then s.panic "virtio_disk_intr status"
    else
      match s.infoB id with
      | none => s.panic "kerneltrap"
      | some b =>
        { s with
          bufDisk := update s.bufDisk b false
          used := s.used.pop U16
          processed := s.processed ++ [id] }.wakeBuf b
  else { s with lock := none }

/-- The device takes the next chain from `avail->ring`. -/
def take (s : Virtio) : Option Virtio :=
  if s.avail.head ≠ s.avail.tail then
    let id := s.avail.data (s.avail.head % NUM)
    some { s with
      avail := s.avail.pop U16
      pending := s.pending ++ [id]
      accepted := s.accepted ++ [id] }
  else none

/-- The device follows the chain of `id` to the status byte, which it sets to 0, and puts the
chain into `used->ring`. -/
def complete (s : Virtio) (id : Nat) : Option Virtio :=
  if id ∈ s.pending then
    some { s with
      infoStatus :=
        match (s.desc (s.desc (s.desc id).next).next).addr with
        | .status i => update s.infoStatus i 0
        | _ => s.infoStatus
      pending := s.pending.erase id
      used := s.used.push NUM U16 id
      completed := update s.completed (s.serialOf id) true
      completions := s.completions ++ [id] }
  else none

/-- Nothing happens after a panic. -/
def next (s : Virtio) (e : VirtioEvent) : Option Virtio :=
  if s.panicked ≠ none then none
  else
    match e with
    | .virtioDiskRw p b write => if p < NPROC then s.begin p b write else none
    | .step p => if p < NPROC then s.step p else none
    | .kkill p => if p < NPROC then some (s.kkill p) else none
    | .intr => if s.lock = none then some { s with lock := some .intr } else none
    | .intrStep => if s.lock = some .intr then some s.intrStep else none
    | .take => s.take
    | .complete id => s.complete id

/-- The disk after `virtio_disk_init`, with no call in progress. -/
structure Initial (s : Virtio) : Prop where
  free : ∀ i, i < NUM → s.free i = true
  avail : s.avail.head = 0 ∧ s.avail.tail = 0
  pending : s.pending = []
  used : s.used.head = 0 ∧ s.used.tail = 0
  lock : s.lock = none
  proc : ∀ p, s.proc p = .idle
  panicked : s.panicked = none
  completed : ∀ n, s.completed n = false
  submitted : s.submitted = []
  accepted : s.accepted = []
  completions : s.completions = []
  processed : s.processed = []

/-- The states in every interleaving of the processes, the interrupts and the device. -/
def Reachable : Virtio → Prop := Machine.Reach next (fun _ _ => True) Initial

end Virtio

end EAFITos
