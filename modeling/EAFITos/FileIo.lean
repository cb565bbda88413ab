/-
`fileread` and `filewrite` of `kernel/file.c` on one `struct file` of type `FD_INODE` that any number
of processes share.  A write is cut into chunks, and gives up the inode between them.
-/
import EAFITos.FsLogged
import EAFITos.Mkfs

namespace EAFITos

open Finset Function List

/-- A call on the file: `room` bytes at the destination of a read can be written, and `src` are the
bytes at the source of a write up to the first one that cannot be read. -/
inductive FileIoOp where
  | read (n : Int) (room : Nat)
  | write (n : Int) (src : List UInt8)

/-- The arguments of a `filewrite`. -/
structure WriteArgs where
  n : Int
  src : List UInt8

/-- Where a process is.  `off` is `f->off` as it was loaded, `r` the result of `readi` or `writei`, and
`logged` are the blocks that were passed to `log_write` since `begin_op`. -/
inductive FileIoPc where
  | idle
  | readLock (n room : Nat)
  | readLoad (n room : Nat)
  | readRun (n room off : Nat)
  | readAdd (r : Int)
  | readUnlock (r : Int)
  | writeTop (w : WriteArgs) (i : Nat)
  | beginOp (w : WriteArgs) (i : Nat)
  | writeLock (w : WriteArgs) (i : Nat)
  | writeLoad (w : WriteArgs) (i : Nat)
  | writeRun (w : WriteArgs) (i off : Nat)
  | writeAdd (w : WriteArgs) (i : Nat) (r : Int) (logged : List Nat)
  | writeUnlock (w : WriteArgs) (i : Nat) (r : Int) (logged : List Nat)
  | endOp (w : WriteArgs) (i : Nat) (r : Int) (logged : List Nat)

/-- Bytes that went from or to the file, in the call with number `call` of process `proc`. -/
structure Transfer where
  proc : Nat
  call : Nat
  write : Bool
  start : Nat
  bytes : List UInt8

/-- A `filewrite` that has returned. -/
structure WriteResult where
  proc : Nat
  call : Nat
  args : WriteArgs
  ret : Int

/-- The file, its inode and the processes. -/
structure FileIo where
  disk : Disk
  ip : Inode
  /-- The holder of `ip->lock`. -/
  lock : Option Nat
  off : Nat
  readable : Bool
  writable : Bool
  proc : Nat → FileIoPc
  /-- History: how many calls each process has made. -/
  count : Nat → Nat
  /-- History: the transfers in the order in which they ran. -/
  transfers : List Transfer
  /-- History: the writes that have returned. -/
  results : List WriteResult

/-- An event: a process makes a call, or goes on with the one it is in. -/
inductive FileIoEvent where
  | call (p : Nat) (op : FileIoOp)
  | step (p : Nat)

/-- The largest chunk of a write, `((MAXOPBLOCKS-1-1-2) / 2) * BSIZE`. -/
def maxChunk : Nat := (MAXOPBLOCKS - 1 - 1 - 2) / 2 * BSIZE

/-- `n1`: the length of the next chunk. -/
def WriteArgs.chunk (w : WriteArgs) (i : Nat) : Nat := min (w.n.toNat - i) maxChunk

namespace FileIoPc

/-- The blocks that the process logged in the section between `begin_op` and `end_op` it is in. -/
def logged : FileIoPc → List Nat
  | .writeAdd _ _ _ logged | .writeUnlock _ _ _ logged | .endOp _ _ _ logged => logged
  | _ => []

end FileIoPc

namespace FileIo

/-- The process `p` goes on at `pc`. -/
def goto (s : FileIo) (p : Nat) (pc : FileIoPc) : FileIo :=
  { s with proc := update s.proc p pc }

theorem goto_proc (s : FileIo) (p : Nat) (pc : FileIoPc) : (s.goto p pc).proc p = pc := by
  dsimp only [goto]
  rw [update_self]

/-- `if(r > 0) f->off += r`. -/
def advance (off : Nat) (r : Int) : Nat := if 0 < r then (off + r.toNat) % U32 else off

/-- A transfer has left the disk and the inode as they are now. -/
def transferred (s : FileIo) (p : Nat) (write : Bool) (off : Nat) (r : Int) (bytes : List UInt8)
    (ip : Inode) (disk : Disk) : FileIo :=
  { s with
    disk
    ip
    transfers := if 0 < r then s.transfers ++ [⟨p, s.count p, write, off, bytes⟩] else s.transfers }

/-- `filewrite` returns: `ret = (i == n ? n : -1)`. -/
def finish (s : FileIo) (p : Nat) (w : WriteArgs) (i : Nat) : FileIo :=
  let result : WriteResult := ⟨p, s.count p, w, if i = w.n then w.n else -1⟩
  { s with results := s.results ++ [result] }.goto p .idle

/-- A call begins.  One that the mode of the file forbids returns at once. -/
def call (s : FileIo) (p : Nat) : FileIoOp → FileIo
  | .read n room =>
    let s := { s with count := update s.count p (s.count p + 1) }
    if s.readable then s.goto p (.readLock (n % (U32 : Int)).toNat room) else s
  | .write n src =>
    let s := { s with count := update s.count p (s.count p + 1) }
    if s.writable then s.goto p (.writeTop ⟨n, src⟩ 0)
    else { s with results := s.results ++ [⟨p, s.count p, ⟨n, src⟩, -1⟩] }

/-- The next step of a process, unless it has to wait. -/
def step (sb : Superblock) (s : FileIo) (p : Nat) : Option FileIo :=
  match s.proc p with
  | .idle => none
  | .readLock n room =>
    if s.lock = none then some ({ s with lock := some p }.goto p (.readLoad n room)) else none
  | .readLoad n room => some (s.goto p (.readRun n room s.off))
  | .readRun n room off =>
    match Fs.readi sb s.ip off n room ⟨s.disk, []⟩ with
    | .ok (ip, r, bytes) fs =>
      some ((s.transferred p false off r bytes ip fs.disk).goto p (.readAdd r))
    | _ => none
  | .readAdd r => some ({ s with off := advance s.off r }.goto p (.readUnlock r))
  | .readUnlock _ => some ({ s with lock := none }.goto p .idle)
  | .writeTop w i => if (i : Int) < w.n then some (s.goto p (.beginOp w i)) else some (s.finish p w i)
  | .beginOp w i => some (s.goto p (.writeLock w i))
  | .writeLock w i =>
    if s.lock = none then some ({ s with lock := some p }.goto p (.writeLoad w i)) else none
  | .writeLoad w i => some (s.goto p (.writeRun w i s.off))
  | .writeRun w i off =>
    match Fs.writei sb s.ip (w.src.drop i) off (w.chunk i) ⟨s.disk, []⟩ with
    | .ok (ip, r) fs =>
      some ((s.transferred p true off r ((w.src.drop i).take r.toNat) ip fs.disk).goto p
        (.writeAdd w i r fs.logged))
    | _ => none
  | .writeAdd w i r logged =>
    some ({ s with off := advance s.off r }.goto p (.writeUnlock w i r logged))
  | .writeUnlock w i r logged => some ({ s with lock := none }.goto p (.endOp w i r logged))
  | .endOp w i r _ =>
    if r = w.chunk i then some (s.goto p (.writeTop w (i + w.chunk i))) else some (s.finish p w i)

def next (sb : Superblock) (s : FileIo) : FileIoEvent → Option FileIo
  | .call p op =>
    match s.proc p with
    | .idle => some (s.call p op)
    | _ => none
  | .step p => s.step sb p

variable {sb : Superblock} {s s' : FileIo} {p : Nat}

/-- What a step of `p` can do. -/
inductive Stepped (sb : Superblock) (s : FileIo) (p : Nat) : FileIo → Prop
  | readLock {n room : Nat} : s.proc p = .readLock n room → s.lock = none →
      Stepped sb s p ({ s with lock := some p }.goto p (.readLoad n room))
  | readLoad {n room : Nat} : s.proc p = .readLoad n room →
      Stepped sb s p (s.goto p (.readRun n room s.off))
  | readRun {n room off : Nat} {ip : Inode} {r : Int} {bytes : List UInt8} {fs : Fs} :
      s.proc p = .readRun n room off →
      Fs.readi sb s.ip off n room ⟨s.disk, []⟩ = .ok (ip, r, bytes) fs →
      Stepped sb s p ((s.transferred p false off r bytes ip fs.disk).goto p (.readAdd r))
  | readAdd {r : Int} : s.proc p = .readAdd r →
      Stepped sb s p ({ s with off := advance s.off r }.goto p (.readUnlock r))
  | readUnlock {r : Int} : s.proc p = .readUnlock r →
      Stepped sb s p ({ s with lock := none }.goto p .idle)
  | writeMore {w : WriteArgs} {i : Nat} : s.proc p = .writeTop w i → (i : Int) < w.n →
      Stepped sb s p (s.goto p (.beginOp w i))
  | writeDone {w : WriteArgs} {i : Nat} : s.proc p = .writeTop w i → w.n ≤ (i : Int) →
      Stepped sb s p (s.finish p w i)
  | beginOp {w : WriteArgs} {i : Nat} : s.proc p = .beginOp w i →
      Stepped sb s p (s.goto p (.writeLock w i))
  | writeLock {w : WriteArgs} {i : Nat} : s.proc p = .writeLock w i → s.lock = none →
      Stepped sb s p ({ s with lock := some p }.goto p (.writeLoad w i))
  | writeLoad {w : WriteArgs} {i : Nat} : s.proc p = .writeLoad w i →
      Stepped sb s p (s.goto p (.writeRun w i s.off))
  | writeRun {w : WriteArgs} {i off : Nat} {ip : Inode} {r : Int} {fs : Fs} :
      s.proc p = .writeRun w i off →
      Fs.writei sb s.ip (w.src.drop i) off (w.chunk i) ⟨s.disk, []⟩ = .ok (ip, r) fs →
      Stepped sb s p ((s.transferred p true off r ((w.src.drop i).take r.toNat) ip fs.disk).goto p
        (.writeAdd w i r fs.logged))
  | writeAdd {w : WriteArgs} {i : Nat} {r : Int} {logged : List Nat} :
      s.proc p = .writeAdd w i r logged →
      Stepped sb s p ({ s with off := advance s.off r }.goto p (.writeUnlock w i r logged))
  | writeUnlock {w : WriteArgs} {i : Nat} {r : Int} {logged : List Nat} :
      s.proc p = .writeUnlock w i r logged →
      Stepped sb s p ({ s with lock := none }.goto p (.endOp w i r logged))
  | endOp {w : WriteArgs} {i : Nat} {r : Int} {logged : List Nat} : s.proc p = .endOp w i r logged →
      r = w.chunk i → Stepped sb s p (s.goto p (.writeTop w (i + w.chunk i)))
  | failed {w : WriteArgs} {i : Nat} {r : Int} {logged : List Nat} :
      s.proc p = .endOp w i r logged → r ≠ w.chunk i → Stepped sb s p (s.finish p w i)

theorem Stepped.of_step (h : s.step sb p = some s') : Stepped sb s p s' := by
  rw [step] at h
  split at h
  · cases h
  · next hpc =>
    split at h <;> cases h
    exact .readLock hpc ‹_›
  · next hpc => cases h; exact .readLoad hpc
  · next hpc =>
    split at h <;> cases h
    exact .readRun hpc ‹_›
  · next hpc => cases h; exact .readAdd hpc
  · next hpc => cases h; exact .readUnlock hpc
  · next hpc =>
    split at h <;> cases h
    · exact .writeMore hpc ‹_›
    · exact .writeDone hpc (Int.not_lt.mp ‹_›)
  · next hpc => cases h; exact .beginOp hpc
  · next hpc =>
    split at h <;> cases h
    exact .writeLock hpc ‹_›
  · next hpc => cases h; exact .writeLoad hpc
  · next hpc =>
    split at h <;> cases h
    exact .writeRun hpc ‹_›
  · next hpc => cases h; exact .writeAdd hpc
  · next hpc => cases h; exact .writeUnlock hpc
  · next hpc =>
    split at h <;> cases h
    · exact .endOp hpc ‹_›
    · exact .failed hpc ‹_›

/-- What an event can do. -/
theorem next_cases {e : FileIoEvent} (h : next sb s e = some s') :
    (∃ p op, e = .call p op ∧ s.proc p = .idle ∧ s' = s.call p op) ∨
      ∃ p, e = .step p ∧ Stepped sb s p s' := by
  cases e with
  | call p op =>
    rw [next] at h
    split at h <;> cases h
    exact .inl ⟨p, op, rfl, ‹_›, rfl⟩
  | step p => exact .inr ⟨p, rfl, .of_step h⟩

/-! ## The log reservation -/

theorem advance_lt {off : Nat} (h : off < U32) (r : Int) : advance off r < U32 := by
  rw [advance]
  split
  · exact Nat.mod_lt _ (by decide)
  · exact h

end FileIo

/-- What is known of a process in a section: the offset is a `uint`, and after `writei` few blocks are
logged. -/
def FileIoPc.Short : FileIoPc → Prop
  | .writeRun _ _ off => off < U32
  | .writeAdd _ _ _ logged | .writeUnlock _ _ _ logged | .endOp _ _ _ logged =>
    logged.toFinset.card ≤ 7
  | _ => True

namespace FileIo

structure Reserved (s : FileIo) : Prop where
  off : s.off < U32
  short : ∀ p, (s.proc p).Short

theorem Reserved.move {pc : FileIoPc} (h : Reserved s) (hoff : s'.off < U32)
    (hproc : s'.proc = update s.proc p pc) (hpc : pc.Short) : Reserved s' where
  off := hoff
  short := by
    rw [hproc]
    exact (forall_update_iff s.proc fun _ pc => pc.Short).mpr ⟨hpc, fun q _ => h.short q⟩

theorem Reserved.step (h : Reserved s) (hsize : sb.size ≤ BPB) (hstep : Stepped sb s p s') :
    Reserved s' := by
  have hshort := h.short p
  cases hstep with
  | readLock _ _ | readLoad _ | readRun _ _ | readUnlock _ | writeMore _ _ | writeDone _ _ | beginOp _
  | writeLock _ _ | endOp _ _ | failed _ _ => exact h.move h.off rfl trivial
  | readAdd _ => exact h.move (advance_lt h.off _) rfl trivial
  | writeLoad _ => exact h.move h.off rfl h.off
  | writeRun hpc hrun =>
    rw [hpc] at hshort
    obtain ⟨blocks, hlen, new, hlogged, hnew⟩ :=
      (Fs.writei_adds sb hsize s.ip _ _ hshort (Nat.min_le_right _ maxChunk)).of_ok hrun
    rw [append_nil] at hlogged
    refine h.move h.off rfl ?_
    have hsub : new.toFinset ⊆ blocks.toFinset := fun b hb =>
      mem_toFinset.mpr (hnew b (mem_toFinset.mp hb))
    rw [hlogged]
    exact Nat.le_trans (card_le_card hsub) (Nat.le_trans blocks.toFinset_card_le hlen)
  | writeAdd hpc =>
    rw [hpc] at hshort
    exact h.move (advance_lt h.off _) rfl hshort
  | writeUnlock hpc =>
    rw [hpc] at hshort
    exact h.move h.off rfl hshort

theorem Reserved.call (h : Reserved s) (p : Nat) (op : FileIoOp) : Reserved (s.call p op) := by
  cases op with
  | read n room =>
    rw [FileIo.call]
    dsimp only
    split
    · exact h.move h.off rfl trivial
    · exact ⟨h.off, h.short⟩
  | write n src =>
    rw [FileIo.call]
    dsimp only
    split
    · exact h.move h.off rfl trivial
    · exact ⟨h.off, h.short⟩

/-- No call is going on. -/
def Idle (s : FileIo) : Prop := s.off < U32 ∧ ∀ p, s.proc p = .idle

/-- **The log reservation of `filewrite`.**  With a single bitmap block, and from any contents of the
disk, of the inode and of `f->off`, no section between `begin_op` and `end_op` logs more than
`MAXOPBLOCKS` different blocks. -/
theorem filewrite_within_reservation (hsize : sb.size ≤ BPB)
    (h : Machine.Reach (next sb) (fun _ _ => True) Idle s) (p : Nat) :
    (s.proc p).logged.toFinset.card ≤ MAXOPBLOCKS := by
  have hreserved : Reserved s := by
    refine h.invariant (P := Reserved) (fun s hinit => ?_) fun s e s' h _ hnext => ?_
    · exact ⟨hinit.1, fun p => by rw [hinit.2 p]; trivial⟩
    · rcases next_cases hnext with ⟨p, op, -, -, rfl⟩ | ⟨p, -, hstep⟩
      · exact h.call p op
      · exact h.step hsize hstep
  have hshort := hreserved.short p
  cases hpc : s.proc p with
  | writeAdd w i r logged | writeUnlock w i r logged | endOp w i r logged =>
    rw [hpc] at hshort
    exact Nat.le_trans hshort (by decide)
  | _ => exact Nat.zero_le _

/-- An empty file on a disk of the size that `mkfs` gives it. -/
def mkfsFile : FileIo where
  disk := fun _ _ => 0
  ip := ⟨Disk.inode (fun _ _ => 0) Mkfs.sb 1, 1⟩
  lock := none
  off := 0
  readable := true
  writable := true
  proc := fun _ => .idle
  count := fun _ => 0
  transfers := []
  results := []

/-- A process has written the first chunk of 5000 bytes. -/
theorem filewrite_within_reservation_mkfs : ∃ (s : FileIo) (r : Int) (logged : List Nat),
    Machine.Reach (next Mkfs.sb) (fun _ _ => True) Idle s ∧
    s.proc 0 = .writeAdd ⟨5000, replicate 5000 1⟩ 0 r logged ∧
      logged.toFinset.card ≤ MAXOPBLOCKS := by
  have hstart : Machine.Reach (next Mkfs.sb) (fun _ _ => True) Idle mkfsFile :=
    .start ⟨by decide, fun _ => rfl⟩
  have hcall := hstart.step (e := .call 0 (.write 5000 (replicate 5000 1))) trivial rfl
  have htop := hcall.step (e := .step 0) trivial rfl
  have hbegin := htop.step (e := .step 0) trivial rfl
  have hlock := hbegin.step (e := .step 0) trivial rfl
  have hload := hlock.step (e := .step 0) trivial rfl
  obtain ⟨s, hs, hpc, hip, hdisk⟩ : ∃ s, Machine.Reach (next Mkfs.sb) (fun _ _ => True) Idle s ∧
      s.proc 0 = .writeRun ⟨5000, replicate 5000 1⟩ 0 0 ∧ s.ip = mkfsFile.ip ∧
      s.disk = mkfsFile.disk := ⟨_, hload, rfl, rfl, rfl⟩
  obtain ⟨⟨ip, r⟩, fs, hrun, -⟩ := (Fs.writei_adds Mkfs.sb (by decide) mkfsFile.ip
    (replicate 5000 1) ⟨mkfsFile.disk, []⟩ (show 0 < U32 by decide)
    le_rfl).exists_ok
  have hchunk : WriteArgs.chunk ⟨5000, replicate 5000 1⟩ 0 = 3 * BSIZE := rfl
  have hnext : next Mkfs.sb s (.step 0) = some ((s.transferred 0 true 0 r
      ((replicate 5000 1).take r.toNat) ip fs.disk).goto 0
      (.writeAdd ⟨5000, replicate 5000 1⟩ 0 r fs.logged)) := by
    rw [next, step, hpc, hip, hdisk]
    dsimp only
    rw [drop_zero, hchunk, hrun]
  have hcard := filewrite_within_reservation (by decide) (hs.step trivial hnext) 0
  rw [goto_proc] at hcard
  exact ⟨_, r, fs.logged, hs.step trivial hnext, goto_proc _ 0 _, hcard⟩

end FileIo

end EAFITos
