/-
The invariant of the log's machine: where the header, the log blocks, the home blocks and
the cache stand at every point of an operation, of a commit and of recovery.
-/
import EAFITos.Coherent
import EAFITos.LogSpace

namespace EAFITos

open List

/-! ## The header block -/

theorem loadLE_writeHead (data : Block) {lh : List Nat} (hroom : lh.length < 2 ^ 32)
    (hsmall : ∀ b ∈ lh, b < 2 ^ 32) :
    (writeHead data lh).loadLE 0 INTSIZE = lh.length ∧ ∀ i, i < lh.length →
      (writeHead data lh).loadLE (INTSIZE + INTSIZE * i) INTSIZE = lh.getD i 0 := by
  -- after the stores of the first `n` entries
  have hloop : ∀ n, n ≤ lh.length →
      let data' := (List.range n).foldl
        (fun data i => data.storeLE (INTSIZE + INTSIZE * i) INTSIZE (lh.getD i 0))
        (data.storeLE 0 INTSIZE lh.length)
      data'.loadLE 0 INTSIZE = lh.length ∧
        ∀ i, i < n → data'.loadLE (INTSIZE + INTSIZE * i) INTSIZE = lh.getD i 0 := by
    intro n
    induction n with
    | zero => exact fun _ => ⟨ByteMem.loadLE_storeLE_of_lt data hroom, fun i hi => absurd hi (Nat.not_lt_zero i)⟩
    | succ n ih =>
      intro hn
      obtain ⟨hcount, hentries⟩ := ih (Nat.le_of_succ_le hn)
      simp only [range_succ, foldl_append, foldl_cons, foldl_nil]
      have hlt : lh.getD n 0 < 256 ^ INTSIZE := by
        rw [getD_eq_getElem _ _ hn]
        exact hsmall _ (getElem_mem hn)
      refine ⟨?_, fun i hi => ?_⟩
      · rw [ByteMem.loadLE_storeLE_other _ (by simp only [INTSIZE]; omega)]
        exact hcount
      · rcases Nat.lt_succ_iff_lt_or_eq.mp hi with hi | rfl
        · rw [ByteMem.loadLE_storeLE_other _ (by simp only [INTSIZE]; omega)]
          exact hentries i hi
        · exact ByteMem.loadLE_storeLE_of_lt _ hlt
  exact hloop lh.length le_rfl

theorem readHead_writeHead (data : Block) {lh : List Nat} (hroom : lh.length < 2 ^ 32)
    (hsmall : ∀ b ∈ lh, b < 2 ^ 32) : readHead (writeHead data lh) = lh := by
  obtain ⟨hcount, hentries⟩ := loadLE_writeHead data hroom hsmall
  rw [readHead, hcount]
  refine ext_getElem (by simp) fun i hi hi' => ?_
  rw [getElem_map, getElem_range, hentries i hi', getD_eq_getElem _ _ hi']

namespace CopyPc

/-- After the first `bget` of the body. -/
def inside : CopyPc → Bool
  | .getLog => false
  | _ => true

/-- After the `bwrite` of the body. -/
def written : CopyPc → Bool
  | .unpin _ _ | .release _ _ | .finish _ _ => true
  | _ => false

/-- After the `bunpin` of `install_trans`. -/
def unpinned : CopyPc → Bool
  | .release _ _ | .finish _ _ => true
  | _ => false

end CopyPc

/-- After the `bwrite` of `write_head`, or after `read_head` has read. -/
def HeadPc.done : HeadPc → Bool
  | .release _ => true
  | _ => false

namespace LogState

variable {s s' : LogState} {p q i b : Nat} {pc : LogPc} {e : LogEvent}

/-- The header on disk. -/
def head (s : LogState) : List Nat := readHead (s.disk s.start)

/-- What recovery from the disk makes of a home block. -/
def replay (s : LogState) (b : Nat) : Block :=
  if b ∈ s.head then s.disk (s.logBlock (s.head.idxOf b)) else s.disk b

def entry (s : LogState) (tail : Nat) : Nat := s.lh.getD tail 0

/-- Entries fit for the header of a log at `start`. -/
structure Entries (start : Nat) (lh : List Nat) : Prop where
  nodup : lh.Nodup
  room : lh.length ≤ LOGBLOCKS
  home : ∀ b ∈ lh, b < start ∨ start + LOGBLOCKS < b
  small : ∀ b ∈ lh, b < 2 ^ 32

/-- The first `n` log blocks have the latest contents of their entries. -/
def Copied (s : LogState) (n : Nat) : Prop :=
  ∀ k, k < n → s.disk (s.logBlock k) = s.store (s.entry k)

/-- The first `n` entries have been written home. -/
def Installed (s : LogState) (n : Nat) : Prop :=
  ∀ k, k < n → s.disk (s.entry k) = s.durable (s.entry k)

/-- What holds of disk, log and histories while a process is at `pc`. -/
def LogFacts (s : LogState) : LogPc → Prop
  | .idle | .op _ _ => True
  | .readHead pos => s.booting ∧ s.pinned = [] ∧ (pos.done → s.lh = s.head)
  | .writeLog tail pos => s.booting = false ∧ s.head = [] ∧ s.pinned = s.lh ∧
      tail ≤ s.lh.length ∧ (pos.inside → tail < s.lh.length) ∧ s.Copied (tail + pos.written.toNat)
  | .writeHead false pos => s.booting = false ∧ s.pinned = s.lh ∧ s.Copied s.lh.length ∧
      if pos.done then s.head = s.lh ∧ (∀ b, s.Home b → s.store b = s.durable b) else s.head = []
  | .install tail pos => s.head = s.lh ∧ tail ≤ s.lh.length ∧ (pos.inside → tail < s.lh.length) ∧
      (s.booting = false → ∀ b, s.Home b → s.store b = s.durable b) ∧
      s.Installed (tail + pos.written.toNat) ∧
      s.pinned = if s.booting then [] else s.lh.drop (tail + pos.unpinned.toNat)
  | .writeHead true pos => s.lh = [] ∧ s.pinned = [] ∧ (∀ b, s.Home b → s.disk b = s.durable b) ∧
      (pos.done → s.head = [])
  | .endCommit => s.lh = [] ∧ s.pinned = [] ∧ s.head = []

/-- The buffers that a process at `pc` is using, with their blocks. -/
def buffers (s : LogState) : LogPc → List (Nat × Nat)
  | .writeLog tail (.getHome l) | .install tail (.getHome l) => [(l, s.logBlock tail)]
  | .writeLog tail (.finish l _) => [(l, s.logBlock tail)]
  | .install tail (.finish _ d) => [(d, s.entry tail)]
  | .writeLog tail (.copy l d) | .writeLog tail (.write l d) | .writeLog tail (.release l d)
  | .install tail (.copy l d) | .install tail (.write l d) | .install tail (.unpin l d)
  | .install tail (.release l d) => [(l, s.logBlock tail), (d, s.entry tail)]
  | .writeHead _ (.edit i) | .writeHead _ (.write i) | .writeHead _ (.release i)
  | .readHead (.edit i) | .readHead (.release i) => [(i, s.start)]
  | _ => []

/-- The buffer that a process at `pc` is about to write, and what it must contain. -/
def changes (s : LogState) : LogPc → Option (Nat × (Block → Prop))
  | .writeLog tail (.write l _) => some (l, fun data => data = s.store (s.entry tail))
  | .install tail (.write _ d) => some (d, fun data => data = s.durable (s.entry tail))
  | .writeHead _ (.write i) => some (i, fun data => readHead data = s.lh)
  | _ => none

/-- A process has the buffers of its `pc`, no others if it commits, and the one it writes
has the contents meant. -/
structure BufFacts (s : LogState) (p : Nat) (pc : LogPc) : Prop where
  has : ∀ i b, (i, b) ∈ s.buffers pc →
    (s.cache.hold p i).active ∧ (s.cache.buf i).names ROOTDEV b
  only : pc.inCommit → ∀ i, (s.cache.hold p i).active → ∃ b, (i, b) ∈ s.buffers pc
  changed : ∀ i P, s.changes pc = some (i, P) → s.cache.hold p i = .dirty ∧ P (s.cache.buf i).data

/-- The invariant. -/
structure Inv (s : LogState) : Prop where
  phase : Phase s
  coherent : s.cache.Coherent s.Home s.disk s.store s.pinned
  mine : ∀ p i, (s.pc p).inCommit = false → (s.cache.hold p i).active →
    s.Home (s.cache.buf i).blockno ∧ (s.cache.buf i).blockno < 2 ^ 32
  dirty : ∀ p i, s.cache.hold p i = .dirty → (s.pc p).inOp = 1 ∨ ∃ P, s.changes (s.pc p) = some (i, P)
  entries : Entries s.start s.lh
  heads : Entries s.start s.head
  durable : ∀ b, s.Home b → s.replay b = s.durable b
  started : ∀ p started logged, s.pc p = .op started logged → started = s.commits
  rest : s.committing = false → s.booting = false → s.head = [] ∧ s.pinned = s.lh
  logFacts : ∀ p, s.LogFacts (s.pc p)
  bufFacts : ∀ p, s.BufFacts p (s.pc p)

end LogState

end EAFITos
