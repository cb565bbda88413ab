/-
`mkfs/mkfs.c`: the program that builds a file-system image from a list of files.  A failing
`assert` or `die` is `none`.  The image has `FSSIZE` blocks, and every block is read before it
is written, so that a sector outside of it makes the read fail.
-/
import EAFITos.Log
import EAFITos.BlockMap
import EAFITos.Dirent

namespace EAFITos

def NINODES : Nat := 200
def FSSIZE : Nat := 2000
def FSMAGIC : Nat := 0x10203040

/-- The image and the next free inode and block. -/
structure Mkfs where
  disk : Disk
  freeinode : Nat
  freeblock : Nat

/-- An argument of `mkfs`, with what the calls of `read` on the file return up to its end. -/
structure InputFile where
  arg : List UInt8
  reads : List (List UInt8)
  chunk : ∀ c ∈ reads, 0 < c.length ∧ c.length ≤ BSIZE

namespace Mkfs

def nbitmap : Nat := FSSIZE / BPB + 1
def ninodeblocks : Nat := NINODES / IPB + 1
def nlog : Nat := LOGBLOCKS + 1
def nmeta : Nat := 2 + nlog + ninodeblocks + nbitmap

def sb : Superblock where
  size := FSSIZE
  nblocks := FSSIZE - nmeta
  ninodes := NINODES
  nlog := nlog
  logstart := 2
  inodestart := 2 + nlog
  bmapstart := 2 + nlog + ninodeblocks

def zeroes : Block := fun _ => 0

/-- The words of the super block. -/
def sbWord (k : Nat) : Nat :=
  [FSMAGIC, sb.size, sb.nblocks, sb.ninodes, sb.nlog, sb.logstart, sb.inodestart,
    sb.bmapstart].getD k 0

/-- The image of zeros with its super block. -/
def start : Mkfs where
  disk := Function.update (fun _ => zeroes) 1 (zeroes.storeWords 0 sbWord 8)
  freeinode := 1
  freeblock := nmeta

/-- The block at the file position `sec * BSIZE`, a `uint`. -/
def sector (sec : Nat) : Nat := sec * BSIZE % U32 / BSIZE

def rsect (s : Mkfs) (sec : Nat) : Option Block :=
  if sector sec < FSSIZE then some (s.disk (sector sec)) else none

def wsect (s : Mkfs) (sec : Nat) (buf : Block) : Mkfs :=
  { s with disk := Function.update s.disk (sector sec) buf }

def winode (s : Mkfs) (inum : Nat) (d : Dinode) : Option Mkfs :=
  (s.rsect (sb.iblock inum)).map fun buf =>
    s.wsect (sb.iblock inum) (buf.setDinode (inum % IPB) d)

def rinode (s : Mkfs) (inum : Nat) : Option Dinode :=
  (s.rsect (sb.iblock inum)).map fun buf => buf.dinode (inum % IPB)

/-- The inode that `ialloc` writes. -/
def newInode (type : BitVec 16) : Dinode where
  type := type
  major := 0
  minor := 0
  nlink := 1
  size := 0
  addrs := fun _ => 0

def ialloc (s : Mkfs) (type : BitVec 16) : Option (Mkfs × Nat) :=
  ({ s with freeinode := s.freeinode + 1 }.winode s.freeinode (newInode type)).map fun s' =>
    (s', s.freeinode)

/-- Mark the first `used` blocks. -/
def bitmap (used : Nat) : Block := (List.range used).foldl Block.setBit zeroes

def balloc (s : Mkfs) (used : Nat) : Option Mkfs :=
  if used < BPB then some (s.wsect sb.bmapstart (bitmap used)) else none

/-- The block for index `fbn` in the loop of `iappend`. -/
def appendBlock (s : Mkfs) (din : Dinode) (fbn : Nat) : Option (Mkfs × Dinode × Nat) :=
  if fbn < NDIRECT then
    if din.addrs fbn = 0 then
      some ({ s with freeblock := s.freeblock + 1 },
        { din with addrs := Function.update din.addrs fbn s.freeblock }, s.freeblock)
    else some (s, din, din.addrs fbn)
  else
    let (s, din) :=
      if din.addrs NDIRECT = 0 then
        ({ s with freeblock := s.freeblock + 1 },
          { din with addrs := Function.update din.addrs NDIRECT s.freeblock })
      else (s, din)
    match s.rsect (din.addrs NDIRECT) with
    | none => none
    | some ind =>
      if ind.uint (fbn - NDIRECT) = 0 then
        some ({ s with freeblock := s.freeblock + 1 }.wsect (din.addrs NDIRECT)
          (ind.setUint (fbn - NDIRECT) s.freeblock), din, s.freeblock)
      else some (s, din, ind.uint (fbn - NDIRECT))

/-- The loop of `iappend`, with the bytes that are left. -/
def iappendLoop (s : Mkfs) (din : Dinode) (off : Nat) (p : List UInt8) :
    Option (Mkfs × Dinode × Nat) :=
  if _hp : p = [] then some (s, din, off)
  else
    let fbn := off / BSIZE
    if fbn < MAXFILE then
      match s.appendBlock din fbn with
      | none => none
      | some (s, din, x) =>
        let n1 := min p.length ((fbn + 1) * BSIZE - off)
        match s.rsect x with
        | none => none
        | some buf =>
          iappendLoop (s.wsect x (buf.storeBytes (off - fbn * BSIZE) (p.take n1))) din
            (off + n1) (p.drop n1)
    else none
termination_by p.length
decreasing_by
  have hlen : 0 < p.length := List.length_pos_of_ne_nil _hp
  have hroom : off < (off / BSIZE + 1) * BSIZE := by
    rw [Nat.mul_comm]
    exact Nat.lt_mul_div_succ off (by decide)
  rw [List.length_drop]
  omega

def iappend (s : Mkfs) (inum : Nat) (p : List UInt8) : Option Mkfs :=
  match s.rinode inum with
  | none => none
  | some din =>
    match s.iappendLoop din din.size p with
    | none => none
    | some (s, din, off) => s.winode inum { din with size := off }

/-- The argument without a leading `user/`. -/
def shortname (arg : List UInt8) : List UInt8 :=
  if [117, 115, 101, 114, 47].isPrefixOf arg then arg.drop 5 else arg

/-- The name in the directory: binaries lose their leading underscore. -/
def dirName (short : List UInt8) : List UInt8 :=
  if short.head? = some 95 then short.drop 1 else short

/-- The body of the loop over the arguments. -/
def addFile (s : Mkfs) (file : InputFile) : Option Mkfs :=
  let short := shortname file.arg
  if 47 ∈ short then none
  else if DIRSIZ < (dirName short).length then none
  else
    match s.ialloc T_FILE with
    | none => none
    | some (s, inum) =>
      match s.iappend ROOTINO (direntBytes inum (dirName short)) with
      | none => none
      | some s => file.reads.foldlM (fun s c => s.iappend inum c) s

/-- The root directory with its first two entries. -/
def makeRoot : Option Mkfs :=
  match start.ialloc T_DIR with
  | none => none
  | some (s, rootino) =>
    if rootino = ROOTINO then
      (s.iappend rootino (direntBytes rootino [46])).bind fun s =>
        s.iappend rootino (direntBytes rootino [46, 46])
    else none

/-- The size of the root directory is rounded up to whole blocks, or beyond them. -/
def fixRoot (s : Mkfs) : Option Mkfs :=
  match s.rinode ROOTINO with
  | none => none
  | some din => s.winode ROOTINO { din with size := (din.size / BSIZE + 1) * BSIZE }

def main (files : List InputFile) : Option Mkfs :=
  makeRoot.bind fun s =>
    (files.foldlM addFile s).bind fun s =>
      s.fixRoot.bind fun s => s.balloc s.freeblock

end Mkfs

end EAFITos
