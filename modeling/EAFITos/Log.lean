/-
The log of `kernel/log.c` over the buffer cache, as a machine.  A process between
`begin_op` and `end_op` may ask for buffers, change them, log and release them; the last
`end_op` runs `commit`, one buffer operation at a time, while processes outside of a
transaction go on reading.  A crash loses everything but the disk, and recovery runs
before anything else.
-/
import EAFITos.Bio
import EAFITos.Transition

namespace EAFITos

def MAXOPBLOCKS : Nat := 10

def LOGBLOCKS : Nat := MAXOPBLOCKS * 3

/-- Bytes of an `int`. -/
def INTSIZE : Nat := 4

/-! ## The header block -/

/-- `hb->n` and `hb->block[0..n)` of a `struct logheader`. -/
def readHead (data : Block) : List Nat :=
  (List.range (data.loadLE 0 INTSIZE)).map fun i => data.loadLE (INTSIZE + INTSIZE * i) INTSIZE

/-- The stores of `write_head`: the count, then the block numbers in order. -/
def writeHead (data : Block) (lh : List Nat) : Block :=
  (List.range lh.length).foldl
    (fun data i => data.storeLE (INTSIZE + INTSIZE * i) INTSIZE (lh.getD i 0))
    (data.storeLE 0 INTSIZE lh.length)

/-! ## The machine -/

/-- Where a process is in the body of the loops of `write_log` and `install_trans`, with
the buffers of the log block and of the home block. -/
inductive CopyPc where
  | getLog
  | getHome (l : Nat)
  | copy (l d : Nat)
  | write (l d : Nat)
  | unpin (l d : Nat)
  | release (l d : Nat)
  | finish (l d : Nat)
  deriving DecidableEq, Repr

/-- Where a process is in `read_head` or `write_head`, with the buffer of the header. -/
inductive HeadPc where
  | get
  | edit (i : Nat)
  | write (i : Nat)
  | release (i : Nat)
  deriving DecidableEq, Repr

/-- Where a process is: outside of the log's functions, between `begin_op` and `end_op`,
or in one of the functions of `commit` and `recover_from_log`.  An operation carries the
number of commits at its start and the distinct blocks it has logged. -/
inductive LogPc where
  | idle
  | op (started : Nat) (logged : List Nat)
  | readHead (pos : HeadPc)
  | writeLog (tail : Nat) (pos : CopyPc)
  | writeHead (clear : Bool) (pos : HeadPc)
  | install (tail : Nat) (pos : CopyPc)
  | endCommit
  deriving DecidableEq, Repr

/-- Disk, buffer cache, `log` and processes.  `booting` holds while recovery runs.
History: `pinned` has the blocks that are pinned, `store` what was last written to each
block, `durable` the contents as of the last commit, and `commits` counts the commits. -/
structure LogState where
  start : Nat
  disk : Nat → Block
  cache : Bcache
  outstanding : Nat
  committing : Bool
  lh : List Nat
  pc : Nat → LogPc
  booting : Bool
  panic : Option String
  pinned : List Nat
  store : Nat → Block
  durable : Nat → Block
  commits : Nat

namespace LogState

/-- The log block of an entry of the header. -/
def logBlock (s : LogState) (tail : Nat) : Nat := s.start + tail + 1

/-- Blocks outside of the log. -/
def Home (s : LogState) (b : Nat) : Prop := b < s.start ∨ s.start + LOGBLOCKS < b

instance (s : LogState) (b : Nat) : Decidable (s.Home b) :=
  inferInstanceAs (Decidable (_ ∨ _))

def goto (s : LogState) (p : Nat) (pc : LogPc) : LogState :=
  { s with pc := Function.update s.pc p pc }

def setCache (s : LogState) (cache : Bcache) : LogState := { s with cache }

def fail (s : LogState) (message : String) : LogState := { s with panic := some message }

/-- `bget`, after which the process is at `pc` of the buffer.  A process that asks for a
block it already has waits for itself for ever. -/
def bget (s : LogState) (p b : Nat) (pc : Nat → LogPc) : Option LogState :=
  if s.cache.Uses p ROOTDEV b then
    none
  else
    match s.cache.bget p ROOTDEV b with
    | some (i, cache) => some ((s.setCache cache).goto p (pc i))
    | none => some (s.fail "bget: no buffers")

/-- `bwrite` of a changed buffer. -/
def bwrite (s : LogState) (p i : Nat) : LogState :=
  { s with
    disk := Function.update s.disk (s.cache.buf i).blockno (s.cache.buf i).data
    cache := s.cache.setHold p i .ready }

/-- The first half of `brelse`, after which the process is at `pc`. -/
def release (s : LogState) (p i : Nat) (pc : LogPc) : Option LogState :=
  (s.cache.releasesleep p i).map fun cache => (s.setCache cache).goto p pc

def beginOp (s : LogState) (p : Nat) : Option LogState :=
  if s.pc p = .idle ∧ s.booting = false ∧ s.committing = false ∧
      s.lh.length + (s.outstanding + 1) * MAXOPBLOCKS ≤ LOGBLOCKS then
    some ({ s with outstanding := s.outstanding + 1 }.goto p (.op s.commits []))
  else
    none

/-- A file-system operation, or a reader outside of one, asks for a block. -/
def clientGet (s : LogState) (p b : Nat) : Option LogState :=
  match s.pc p with
  | .idle | .op _ _ =>
    if s.booting = false ∧ s.Home b ∧ b < 2 ^ 32 then s.bget p b fun _ => s.pc p else none
  | _ => none

/-- An operation changes a buffer it has read. -/
def modify (s : LogState) (p i : Nat) (data : Block) : Option LogState :=
  match s.pc p with
  | .op _ _ =>
    if (s.cache.hold p i).filled then
      some { s with
        cache := s.cache.edit p i data
        store := Function.update s.store (s.cache.buf i).blockno data }
    else
      none
  | _ => none

/-- `log_write` of a buffer the operation has read. -/
def logWrite (s : LogState) (p i : Nat) : Option LogState :=
  match s.pc p with
  | .op started logged =>
    if (s.cache.hold p i).filled then
      let b := (s.cache.buf i).blockno
      if LOGBLOCKS ≤ s.lh.length then
        some (s.fail "too big a transaction")
      else if s.outstanding < 1 then
        some (s.fail "log_write outside of trans")
      else
        let s' := s.goto p (.op started (if b ∈ logged then logged else logged ++ [b]))
        if b ∈ s.lh then
          some (s'.setCache (s.cache.setHold p i .ready))
        else
          some { s'.setCache ((s.cache.bpin i).setHold p i .ready) with
            lh := s.lh ++ [b]
            pinned := s.pinned ++ [b] }
    else
      none
  | _ => none

/-- A process outside of `commit` releases a buffer; what it changed it has logged. -/
def clientRelease (s : LogState) (p i : Nat) : Option LogState :=
  match s.pc p with
  | .idle | .op _ _ => s.release p i (s.pc p)
  | _ => none

/-- The part of `end_op` under `log.lock`.  Operations release their buffers before. -/
def endOp (s : LogState) (p : Nat) : Option LogState :=
  match s.pc p with
  | .op _ _ =>
    if s.cache.Idle p then
      let s' := { s with outstanding := s.outstanding - 1 }
      if s.committing then
        some (s'.fail "log.committing")
      else if s'.outstanding = 0 then
        some ({ s' with committing := true }.goto p
          (if 0 < s.lh.length then .writeLog 0 .getLog else .endCommit))
      else
        some (s'.goto p .idle)
    else
      none
  | _ => none

def writeLogStep (s : LogState) (p tail : Nat) : CopyPc → Option LogState
  | .getLog =>
    if tail < s.lh.length then
      if s.cache.Idle p then
        s.bget p (s.logBlock tail) fun l => .writeLog tail (.getHome l)
      else
        none
    else
      some (s.goto p (.writeHead false .get))
  | .getHome l =>
    if s.cache.hold p l = .ready then
      s.bget p (s.lh.getD tail 0) fun d => .writeLog tail (.copy l d)
    else
      none
  | .copy l d =>
    if s.cache.hold p l = .ready ∧ s.cache.hold p d = .ready then
      some ((s.setCache (s.cache.edit p l (s.cache.buf d).data)).goto p (.writeLog tail (.write l d)))
    else
      none
  | .write l d =>
    if s.cache.hold p l = .dirty then
      some ((s.bwrite p l).goto p (.writeLog tail (.release l d)))
    else
      none
  | .unpin _ _ => none
  | .release l d => s.release p d (.writeLog tail (.finish l d))
  | .finish l _ =>
    if s.cache.Returned p then
      s.release p l (.writeLog (tail + 1) .getLog)
    else
      none

/-- `write_head`; the first one of `commit` is the point of commit. -/
def writeHeadStep (s : LogState) (p : Nat) (clear : Bool) : HeadPc → Option LogState
  | .get =>
    if s.cache.Idle p then s.bget p s.start fun i => .writeHead clear (.edit i) else none
  | .edit i =>
    if s.cache.hold p i = .ready then
      some ((s.setCache (s.cache.edit p i (EAFITos.writeHead (s.cache.buf i).data s.lh))).goto p
        (.writeHead clear (.write i)))
    else
      none
  | .write i =>
    if s.cache.hold p i = .dirty then
      let s' := (s.bwrite p i).goto p (.writeHead clear (.release i))
      some (if clear then s' else { s' with durable := s.store, commits := s.commits + 1 })
    else
      none
  | .release i => s.release p i (if clear then .endCommit else .install 0 .getLog)

/-- `install_trans`; recovery takes the copied contents for the block's own and has
nothing to unpin. -/
def installStep (s : LogState) (p tail : Nat) : CopyPc → Option LogState
  | .getLog =>
    if tail < s.lh.length then
      if s.cache.Idle p then
        s.bget p (s.logBlock tail) fun l => .install tail (.getHome l)
      else
        none
    else
      some ({ s with lh := [] }.goto p (.writeHead true .get))
  | .getHome l =>
    if s.cache.hold p l = .ready then
      s.bget p (s.lh.getD tail 0) fun d => .install tail (.copy l d)
    else
      none
  | .copy l d =>
    if s.cache.hold p l = .ready ∧ s.cache.hold p d = .ready then
      let data := (s.cache.buf l).data
      let s' := (s.setCache (s.cache.edit p d data)).goto p (.install tail (.write l d))
      some (if s.booting then
        { s' with store := Function.update s.store (s.cache.buf d).blockno data } else s')
    else
      none
  | .write l d =>
    if s.cache.hold p d = .dirty then
      some ((s.bwrite p d).goto p (.install tail (.unpin l d)))
    else
      none
  | .unpin l d =>
    let s' := s.goto p (.install tail (.release l d))
    some (if s.booting then s' else { s'.setCache (s.cache.bunpin d) with
      pinned := s.pinned.erase (s.cache.buf d).blockno })
  | .release l d => s.release p l (.install tail (.finish l d))
  | .finish _ d =>
    if s.cache.Returned p then
      s.release p d (.install (tail + 1) .getLog)
    else
      none

def readHeadStep (s : LogState) (p : Nat) : HeadPc → Option LogState
  | .get => if s.cache.Idle p then s.bget p s.start fun i => .readHead (.edit i) else none
  | .edit i =>
    if s.cache.hold p i = .ready then
      some ({ s with lh := EAFITos.readHead (s.cache.buf i).data }.goto p (.readHead (.release i)))
    else
      none
  | .write _ => none
  | .release i => s.release p i (.install 0 .getLog)

/-- The next step of `commit` or `recover_from_log`, up to `log.committing = 0`. -/
def commitStep (s : LogState) (p : Nat) : Option LogState :=
  match s.pc p with
  | .writeLog tail pos => s.writeLogStep p tail pos
  | .writeHead clear pos => s.writeHeadStep p clear pos
  | .install tail pos => s.installStep p tail pos
  | .readHead pos => s.readHeadStep p pos
  | .endCommit =>
    if s.cache.Idle p then
      some ({ s with committing := false, booting := false }.goto p .idle)
    else
      none
  | _ => none

/-- The kernel as it starts on a disk: the first process reads the log header. -/
def boot (start : Nat) (disk durable : Nat → Block) (commits : Nat) : LogState where
  start := start
  disk := disk
  cache := Bcache.binit
  outstanding := 0
  committing := false
  lh := []
  pc := Function.update (fun _ => .idle) 0 (.readHead .get)
  booting := true
  panic := none
  pinned := []
  store := disk
  durable := durable
  commits := commits

end LogState

/-- Steps of a process: inside `bread` and `brelse`, at the interface of the log, or in
`commit`. -/
inductive LogAction where
  | acquiresleep (i : Nat)
  | bread (i : Nat)
  | brelse (i : Nat)
  | beginOp
  | get (b : Nat)
  | modify (i : Nat) (data : Block)
  | logWrite (i : Nat)
  | release (i : Nat)
  | endOp
  | commit

inductive LogEvent where
  | act (p : Nat) (action : LogAction)
  | crash

namespace LogState

def act (s : LogState) (p : Nat) : LogAction → Option LogState
  | .acquiresleep i => (s.cache.acquiresleep p i).map s.setCache
  | .bread i => (s.cache.bread s.disk p i).map s.setCache
  | .brelse i => (s.cache.brelse p i).map s.setCache
  | .beginOp => s.beginOp p
  | .get b => s.clientGet p b
  | .modify i data => s.modify p i data
  | .logWrite i => s.logWrite p i
  | .release i => s.clientRelease p i
  | .endOp => s.endOp p
  | .commit => s.commitStep p

/-- A panic stops the machine; only a crash, that is a restart, goes on from there. -/
def next (s : LogState) : LogEvent → Option LogState
  | .act p action => if p < NPROC ∧ s.panic = none then s.act p action else none
  | .crash => some (boot s.start s.disk s.durable s.commits)

/-- The state in which recovery leaves a disk with an empty log. -/
structure Initial (s : LogState) : Prop where
  cache : s.cache.Ok
  rootdev : ∀ i, (s.cache.buf i).dev ≠ 0 → (s.cache.buf i).dev = ROOTDEV
  unused : ∀ p i, s.cache.hold p i = .free
  unpinned : ∀ i, s.cache.pins i = 0
  clean : ∀ i, i < NBUF → (s.cache.buf i).valid → (s.cache.buf i).data = s.disk (s.cache.buf i).blockno
  head : readHead (s.disk s.start) = []
  outstanding : s.outstanding = 0
  committing : s.committing = false
  lh : s.lh = []
  pc : ∀ p, s.pc p = .idle
  booting : s.booting = false
  panic : s.panic = none
  pinned : s.pinned = []
  store : s.store = s.disk
  durable : s.durable = s.disk

/-- A zeroed disk, and nothing in the cache. -/
def fresh (start : Nat) : LogState where
  start := start
  disk := fun _ _ => 0
  cache := Bcache.binit
  outstanding := 0
  committing := false
  lh := []
  pc := fun _ => .idle
  booting := false
  panic := none
  pinned := []
  store := fun _ _ => 0
  durable := fun _ _ => 0
  commits := 0

theorem fresh_initial (start : Nat) : Initial (fresh start) where
  cache := Bcache.binit_ok
  rootdev := fun _ hdev => absurd rfl hdev
  unused := fun _ _ => rfl
  unpinned := fun _ => rfl
  clean := nofun
  head := by simp [fresh, readHead, INTSIZE, ByteMem.loadLE]
  outstanding := rfl
  committing := rfl
  lh := rfl
  pc := fun _ => rfl
  booting := rfl
  panic := rfl
  pinned := rfl
  store := rfl
  durable := rfl

/-- The states reached by steps that meet `ok`. -/
def Reachable (ok : LogState → LogEvent → Prop) : LogState → Prop :=
  Machine.Reach next ok Initial

end LogState

end EAFITos
