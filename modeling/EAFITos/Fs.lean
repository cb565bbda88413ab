/-
The lower half of `kernel/fs.c`: the free bitmap, the block map of an inode and the reading and
writing of its contents.  A block is what `bread` returns, that is the contents of its buffer.
`logged` are the blocks that were passed to `log_write`.
-/
import EAFITos.BlockMap

namespace EAFITos

/-- The value of a C `int` with the bits of `x`. -/
def int32 (x : Nat) : Int := (BitVec.ofNat 32 x).toInt

/-- `struct inode`, as far as it is read from the disk. -/
structure Inode extends Dinode where
  inum : Nat

/-- The blocks, and the calls of `log_write`, the last one in front. -/
structure Fs where
  disk : Disk
  logged : List Nat

namespace Fs

def bread (b : Nat) : Prog Fs Block := .read fun s => s.disk b

/-- Change the contents of a buffer. -/
def modify (b : Nat) (f : Block → Block) : Prog Fs PUnit :=
  .update fun s => { s with disk := Function.update s.disk b (f (s.disk b)) }

def logWrite (b : Nat) : Prog Fs PUnit := .update fun s => { s with logged := b :: s.logged }

def bzero (b : Nat) : Prog Fs PUnit := do
  modify b fun _ _ => 0
  logWrite b

/-- The inner loop of `balloc`: the first clear bit of the bitmap block for the blocks from `b` on. -/
def firstClear (sb : Superblock) (b : Nat) (data : Block) : Option Nat :=
  (List.range BPB).find? fun bi => b + bi < sb.size && !data.bit bi

theorem firstClear_def (sb : Superblock) (b : Nat) (data : Block) : firstClear sb b data =
    (List.range BPB).find? fun bi => b + bi < sb.size && !data.bit bi := rfl

-- Unfolding it lists all bits.
attribute [irreducible] firstClear

/-- The outer loop of `balloc`. -/
def ballocFrom (sb : Superblock) : List Nat → Prog Fs Nat
  | [] => pure 0
  | b :: rest => do
    let data ← bread (sb.bblock b)
    match firstClear sb b data with
    | some bi => do
      modify (sb.bblock b) fun data => data.setBit bi
      logWrite (sb.bblock b)
      bzero (b + bi)
      pure (b + bi)
    | none => ballocFrom sb rest

/-- The numbers 0, `BPB`, ... below the size of the file system. -/
def groups (sb : Superblock) : List Nat := (List.range ((sb.size + BPB - 1) / BPB)).map (· * BPB)

/-- `balloc`: a block of zeros, or 0 if there is none. -/
def balloc (sb : Superblock) : Prog Fs Nat := ballocFrom sb (groups sb)

/-- Set a block number of the in-memory inode. -/
def setAddr (ip : Inode) (k b : Nat) : Inode := { ip with addrs := Function.update ip.addrs k b }

/-- A slot of the inode, with a new block if it is empty. -/
def bmapSlot (sb : Superblock) (ip : Inode) (k : Nat) : Prog Fs (Inode × Nat) :=
  if ip.addrs k = 0 then do
    let addr ← balloc sb
    if addr = 0 then pure (ip, 0) else pure (setAddr ip k addr, addr)
  else pure (ip, ip.addrs k)

/-- An entry of the indirect block, with a new block if it is empty. -/
def bmapEntry (sb : Superblock) (ind j : Nat) : Prog Fs Nat := do
  let a ← bread ind
  if a.uint j = 0 then do
    let addr ← balloc sb
    .when (addr ≠ 0) do
      modify ind fun a => a.setUint j addr
      logWrite ind
    pure addr
  else pure (a.uint j)

/-- `bmap`: the block with number `bn` of the file, or 0 if there is no space for it. -/
def bmap (sb : Superblock) (ip : Inode) (bn : Nat) : Prog Fs (Inode × Nat) :=
  if bn < NDIRECT then bmapSlot sb ip bn
  else if bn - NDIRECT < NINDIRECT then do
    let (ip, ind) ← bmapSlot sb ip NDIRECT
    if ind = 0 then pure (ip, 0)
    else do
      let addr ← bmapEntry sb ind (bn - NDIRECT)
      pure (ip, addr)
  else .panic "bmap: out of range"

/-- Copy the in-memory inode to its block. -/
def iupdate (sb : Superblock) (ip : Inode) : Prog Fs PUnit := do
  modify (sb.iblock ip.inum) fun data => data.setDinode (ip.inum % IPB) ip.toDinode
  logWrite (sb.iblock ip.inum)

/-- The part of a transfer that lies in the block of `off`. -/
def step (off n tot : Nat) : Nat := min (n - tot) (BSIZE - off % BSIZE)

theorem step_pos (off : Nat) {n tot : Nat} (h : tot < n) : 0 < step off n tot := by
  have hmod : off % BSIZE < BSIZE := Nat.mod_lt off (by decide)
  rw [step]
  omega

/-- The loop of `readi`.  The destination has `room` bytes up to the first one that cannot be
written; `out` is what is there so far. -/
def readiLoop (sb : Superblock) (ip : Inode) (off n tot room : Nat) (out : List UInt8) :
    Prog Fs (Inode × Int × List UInt8) :=
  if _h : tot < n then do
    let (ip, addr) ← bmap sb ip (off / BSIZE)
    if addr = 0 then pure (ip, int32 tot, out)
    else do
      let data ← bread addr
      let m := step off n tot
      if room < tot + m then
        pure (ip, -1, out ++ data.loadBytes (off % BSIZE) (room - tot))
      else readiLoop sb ip (off + m) n (tot + m) room (out ++ data.loadBytes (off % BSIZE) m)
  else pure (ip, int32 tot, out)
termination_by n - tot
decreasing_by
  have hpos := step_pos off _h
  omega

/-- `readi`: the result and the bytes at the destination. -/
def readi (sb : Superblock) (ip : Inode) (off n room : Nat) : Prog Fs (Inode × Int × List UInt8) :=
  if ip.size < off ∨ (off + n) % U32 < off then pure (ip, 0, [])
  else if ip.size < (off + n) % U32 then readiLoop sb ip off (ip.size - off) 0 room []
  else readiLoop sb ip off n 0 room []

/-- The loop of `writei`.  `src` are the bytes at the source up to the first one that cannot be
read; those that `either_copyin` copies before it fails are in the buffer. -/
def writeiLoop (sb : Superblock) (ip : Inode) (off n tot : Nat) (src : List UInt8) :
    Prog Fs (Inode × Nat × Nat) :=
  if _h : tot < n then do
    let (ip, addr) ← bmap sb ip (off / BSIZE)
    if addr = 0 then pure (ip, off, tot)
    else do
      let m := step off n tot
      modify addr fun data => data.storeBytes (off % BSIZE) ((src.drop tot).take m)
      if src.length < tot + m then pure (ip, off, tot)
      else do
        logWrite addr
        writeiLoop sb ip (off + m) n (tot + m) src
  else pure (ip, off, tot)
termination_by n - tot
decreasing_by
  have hpos := step_pos off _h
  omega

/-- The end of `writei`: the inode is written even if its size is the same. -/
def writeiEnd (sb : Superblock) (ip : Inode) (off : Nat) : Prog Fs Inode := do
  let ip := if ip.size < off then { ip with size := off } else ip
  iupdate sb ip
  pure ip

def writei (sb : Superblock) (ip : Inode) (src : List UInt8) (off n : Nat) :
    Prog Fs (Inode × Int) :=
  if ip.size < off ∨ (off + n) % U32 < off then pure (ip, -1)
  else if MAXFILE * BSIZE < (off + n) % U32 then pure (ip, -1)
  else do
    let (ip, off, tot) ← writeiLoop sb ip off n 0 src
    let ip ← writeiEnd sb ip off
    pure (ip, int32 tot)

end Fs

end EAFITos
