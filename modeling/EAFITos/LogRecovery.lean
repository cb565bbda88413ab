/-
Recovery from a crash ends: the first process, alone, reads the header, installs what it
names and clears it.  A rank on the states of recovery falls at each of its steps.
-/
import EAFITos.LogCapacity

namespace EAFITos

open Function List

variable {disk : Nat → Block} {action : LogAction} {pos : HeadPc} {tail : Nat}

/-! ## The rank -/

/-- Steps left until a process that has asked for a buffer has read it, or until it has
given the buffer back. -/
def Stage.rank : Stage → Nat
  | .waiting => 2
  | .locked | .releasing => 1
  | _ => 0

def CopyPc.rank : CopyPc → Nat
  | .getLog => 7
  | .getHome _ => 6
  | .copy _ _ => 5
  | .write _ _ => 4
  | .unpin _ _ => 3
  | .release _ _ => 2
  | .finish _ _ => 1

def HeadPc.rank : HeadPc → Nat
  | .get => 3
  | .edit _ => 2
  | .write _ => 1
  | .release _ => 0

def LogPc.rank : LogPc → Nat
  | .readHead pos => 300 + pos.rank
  | .install tail pos => 20 + 8 * (LOGBLOCKS - tail) + pos.rank
  | .writeHead _ pos => 10 + pos.rank
  | .endCommit => 5
  | _ => 0

namespace Bcache

variable {c c' : Bcache} {p i b : Nat} {stage : Stage}

def rank (c : Bcache) (p : Nat) : Nat := ∑ i ∈ Finset.range NBUF, (c.hold p i).rank

theorem rank_of_hold (hi : i < NBUF) (hself : c'.hold p i = stage)
    (hother : ∀ j, j ≠ i → c'.hold p j = c.hold p j) :
    c'.rank p + (c.hold p i).rank = c.rank p + stage.rank := by
  have hsame : ∀ j ∈ Finset.range NBUF, j ≠ i → (c'.hold p j).rank = (c.hold p j).rank :=
    fun j _ hne => by rw [hother j hne]
  have hchange : ∑ j ∈ Finset.range NBUF, (c'.hold p j).rank + (c.hold p i).rank =
      ∑ j ∈ Finset.range NBUF, (c.hold p j).rank + (c'.hold p i).rank :=
    Tally.sum_change (Finset.mem_range.mpr hi) hsame
  rwa [hself] at hchange

theorem rank_setHold (hi : i < NBUF) (hhold : c'.hold = (c.setHold p i stage).hold) :
    c'.rank p + (c.hold p i).rank = c.rank p + stage.rank :=
  rank_of_hold hi (by rw [hhold, setHold_self]) fun j hne => by rw [hhold, setHold_of_ne hne]

theorem hold_acquiresleep (hc : c.acquiresleep p i = some c') :
    c.hold p i = .waiting ∧ c'.hold = (c.setHold p i .locked).hold := by
  rw [acquiresleep] at hc
  obtain ⟨hwait, rfl⟩ := Machine.of_guard hc
  exact ⟨hwait.1, rfl⟩

theorem hold_bread (hc : c.bread disk p i = some c') :
    c.hold p i = .locked ∧ c'.hold = (c.setHold p i .ready).hold := by
  rw [bread] at hc
  obtain ⟨hlocked, rfl⟩ := Machine.of_guard hc
  exact ⟨hlocked, rfl⟩

theorem hold_brelse (hc : c.brelse p i = some c') :
    c.hold p i = .releasing ∧ c'.hold = (c.setHold p i .free).hold := by
  rw [brelse] at hc
  obtain ⟨hreleasing, rfl⟩ := Machine.of_guard hc
  dsimp only
  split
  · exact ⟨hreleasing, rfl⟩
  · exact ⟨hreleasing, rfl⟩

end Bcache

namespace LogState

variable {s s' : LogState} {p q i b : Nat} {pc : LogPc}

def rank (s : LogState) : Nat := 4 * (s.pc 0).rank + s.cache.rank 0

/-- A step of a process moves at most one of its buffers. -/
theorem CacheMove.hold_self {c c' : Bcache} (h : CacheMove disk c p c') :
    ∃ i stage, c'.hold = (c.setHold p i stage).hold := by
  cases h with
  | same => exact ⟨0, c.hold p 0, by rw [Bcache.setHold_eq_self]⟩
  | acquired i hc => exact ⟨i, _, (Bcache.hold_acquiresleep hc).2⟩
  | read i hc => exact ⟨i, _, (Bcache.hold_bread hc).2⟩
  | dropped i hc => exact ⟨i, _, (Bcache.hold_brelse hc).2⟩
  | released i hc =>
    rw [Bcache.releasesleep] at hc
    obtain ⟨-, rfl⟩ := Machine.of_guard hc
    exact ⟨i, .releasing, rfl⟩
  | got b i hgot =>
    cases hgot with
    | hit hmem hnames hc => exact ⟨i, .waiting, by rw [hc]; rfl⟩
    | recycled hmem hmiss hrefcnt hc => exact ⟨i, .waiting, by rw [hc]; rfl⟩
  | edited i data => exact ⟨i, .dirty, rfl⟩
  | ready i => exact ⟨i, .ready, rfl⟩
  | pinned i => exact ⟨i, .ready, rfl⟩
  | unpinned i => exact ⟨i, c.hold p i, by rw [Bcache.setHold_eq_self]; rfl⟩

theorem CacheMove.rank_le {c c' : Bcache} (h : CacheMove disk c p c') :
    c'.rank p ≤ c.rank p + 2 := by
  obtain ⟨i, stage, hhold⟩ := h.hold_self
  by_cases hi : i < NBUF
  · have hsum := Bcache.rank_setHold hi hhold
    have hstage : stage.rank ≤ 2 := by cases stage <;> decide
    omega
  · refine le_trans (le_of_eq ?_) (Nat.le_add_right _ _)
    refine Finset.sum_congr rfl fun j hj => ?_
    have hne : j ≠ i := fun heq => hi (heq ▸ Finset.mem_range.mp hj)
    rw [hhold, Bcache.setHold_of_ne hne]

/-- Recovery is under way, by the first process alone. -/
structure Recovering (s : LogState) : Prop where
  booting : s.booting
  first : (s.pc 0).inCommit
  reads : ∀ i, s.pc 0 ≠ .readHead (.write i)
  others : ∀ q i, q ≠ 0 → s.cache.hold q i = .free

theorem boot_recovering (start : Nat) (disk durable : Nat → Block) (commits : Nat) :
    (boot start disk durable commits).Recovering :=
  ⟨rfl, rfl, nofun, fun _ _ _ => rfl⟩

/-- What a step of recovery leads to: more of it, or its end. -/
structure RecoveryStep (s s' : LogState) : Prop where
  panic : s'.panic = none
  goesOn : s'.Recovering ∨ s'.booting = false ∧ s'.committing = false
  rank : s'.rank < s.rank

theorem Recovering.step_cache {cache : Bcache} (h : s.Recovering) (hpanic : s.panic = none)
    (hs : s.act 0 action = some (s.setCache cache)) (hrank : cache.rank 0 < s.cache.rank 0) :
    ∃ s', s.act 0 action = some s' ∧ RecoveryStep s s' := by
  refine ⟨_, hs, hpanic, .inl ⟨h.booting, h.first, h.reads, fun q i hq => ?_⟩,
    Nat.add_lt_add_left hrank _⟩
  rw [(act_effect hs).cache.hold_other hq]
  exact h.others q i hq

/-! ## Steps inside `bread` and `brelse` -/

section

variable (h : Inv s) (hrec : s.Recovering) (hpanic : s.panic = none)
include h hrec hpanic

theorem Inv.acquire_step (hwait : s.cache.hold 0 i = .waiting) :
    ∃ s', s.act 0 (.acquiresleep i) = some s' ∧ RecoveryStep s s' := by
  have hi := (h.coherent.inUse (p := 0) (i := i) (by rw [hwait]; decide)).2.1
  have hlock : (s.cache.buf i).lock = none := by
    cases hlock : (s.cache.buf i).lock with
    | none => rfl
    | some q =>
      have hholding := (h.coherent.ok.lock q i).mpr hlock
      by_cases hq : q = 0
      · rw [hq, hwait] at hholding
        cases hholding
      · rw [hrec.others q i hq] at hholding
        cases hholding
  obtain ⟨cache, hc⟩ : ∃ cache, s.cache.acquiresleep 0 i = some cache :=
    ⟨_, if_pos ⟨hwait, hlock⟩⟩
  refine hrec.step_cache hpanic (by rw [act, hc]; rfl) ?_
  have hsum := Bcache.rank_setHold hi (Bcache.hold_acquiresleep hc).2
  rw [hwait] at hsum
  simp only [Stage.rank] at hsum
  omega

theorem Inv.read_step (hlocked : s.cache.hold 0 i = .locked) :
    ∃ s', s.act 0 (.bread i) = some s' ∧ RecoveryStep s s' := by
  have hi := (h.coherent.inUse (p := 0) (i := i) (by rw [hlocked]; decide)).2.1
  obtain ⟨cache, hc⟩ : ∃ cache, s.cache.bread s.disk 0 i = some cache := by
    rw [Bcache.bread, if_pos hlocked]
    exact ⟨_, rfl⟩
  refine hrec.step_cache hpanic (by rw [act, hc]; rfl) ?_
  have hsum := Bcache.rank_setHold hi (Bcache.hold_bread hc).2
  rw [hlocked] at hsum
  simp only [Stage.rank] at hsum
  omega

theorem Inv.drop_step (hreleasing : s.cache.hold 0 i = .releasing) :
    ∃ s', s.act 0 (.brelse i) = some s' ∧ RecoveryStep s s' := by
  have hi := (h.coherent.inUse (p := 0) (i := i) (by rw [hreleasing]; decide)).2.1
  obtain ⟨cache, hc⟩ : ∃ cache, s.cache.brelse 0 i = some cache := by
    rw [Bcache.brelse, if_pos hreleasing]
    exact ⟨_, rfl⟩
  refine hrec.step_cache hpanic (by rw [act, hc]; rfl) ?_
  have hsum := Bcache.rank_setHold hi (Bcache.hold_brelse hc).2
  rw [hreleasing] at hsum
  simp only [Stage.rank] at hsum
  omega

end

/-! ## Steps of `recover_from_log` -/

/-- Recovery waits for no buffer. -/
def Settled (s : LogState) : Prop :=
  ∀ i, s.cache.hold 0 i ≠ .waiting ∧ s.cache.hold 0 i ≠ .locked ∧ s.cache.hold 0 i ≠ .releasing

theorem Settled.active (h : s.Settled) (hnot : s.cache.hold 0 i ≠ .free) :
    (s.cache.hold 0 i).active := by
  obtain ⟨-, -, hreleasing⟩ := h i
  cases hhold : s.cache.hold 0 i <;> simp_all [Stage.active]

theorem Settled.returned (h : s.Settled) : s.cache.Returned 0 := fun i _ => (h i).2.2

/-- A buffer in use, other than one about to be written, has been read. -/
theorem Inv.settled_ready (h : Inv s) (hrec : s.Recovering) (hset : s.Settled)
    (hnone : s.changes (s.pc 0) = none) (hmem : (i, b) ∈ s.buffers (s.pc 0)) :
    s.cache.hold 0 i = .ready := by
  have hactive := ((h.bufFacts 0).has i b hmem).1
  have hdirty : s.cache.hold 0 i ≠ .dirty := h.clean_commit hrec.first hnone 0 i
  obtain ⟨hwait, hlocked, hreleasing⟩ := hset i
  cases hhold : s.cache.hold 0 i <;> simp_all [Stage.active]

theorem Inv.settled_idle (h : Inv s) (hrec : s.Recovering) (hset : s.Settled)
    (hnil : s.buffers (s.pc 0) = []) : s.cache.Idle 0 := by
  intro i _
  by_contra hnot
  obtain ⟨b, hmem⟩ := (h.bufFacts 0).only hrec.first i (hset.active hnot)
  rw [hnil] at hmem
  cases hmem

theorem Recovering.heldByOthers (h : s.Recovering) : s.cache.heldByOthers 0 = 0 := by
  refine Finset.sum_eq_zero fun q hq => Finset.sum_eq_zero fun i _ => ?_
  rw [h.others q i (Finset.ne_of_mem_erase hq)]
  rfl

theorem Inv.recovering_pinned (h : Inv s) (hrec : s.Recovering) : s.pinned = [] := by
  have hfacts := h.logFacts 0
  have hfirst := hrec.first
  have hboot := hrec.booting
  cases hpc : s.pc 0 <;> rw [hpc] at hfacts hfirst
  case idle => cases hfirst
  case op started logged => cases hfirst
  case readHead pos => exact hfacts.2.1
  case writeLog tail pos => rw [hfacts.1] at hboot; cases hboot
  case writeHead clear pos =>
    cases clear
    · rw [hfacts.1] at hboot; cases hboot
    · exact hfacts.2.1
  case install tail pos =>
    obtain ⟨-, -, -, -, -, hpinned⟩ := hfacts
    rw [hpinned, if_pos hboot]
  case endCommit => exact hfacts.2.1

/-- A step moves the first process to `pc` and leaves recovery as it is. -/
def Moves (s : LogState) (step : Option LogState) (pc : LogPc) : Prop :=
  ∃ s', step = some s' ∧ s'.panic = none ∧ s'.booting = s.booting ∧ s'.pc 0 = pc

/-- Recovery finds a buffer as long as it holds at most one. -/
theorem Inv.recovery_get (next : Nat → LogPc) (h : Inv s) (hrec : s.Recovering)
    (hpanic : s.panic = none) (hnot : ¬ s.cache.Uses 0 ROOTDEV b) (hheld : s.cache.heldBy 0 ≤ 1) :
    ∃ i, s.Moves (s.bget 0 b next) (next i) := by
  have hroom : s.pinned.length + s.cache.heldBy 0 + s.cache.heldByOthers 0 < NBUF := by
    rw [h.recovering_pinned hrec, hrec.heldByOthers, length_nil, NBUF]
    omega
  obtain ⟨j, hj, hfree⟩ := h.coherent.exists_unused (by decide) hroom
  rw [LogState.bget, if_neg hnot]
  cases hget : s.cache.bget 0 ROOTDEV b with
  | none => exact absurd hfree (Bcache.bget_eq_none hget j (h.coherent.ok.mem_lru.mpr hj)).2
  | some r => exact ⟨r.1, _, rfl, hpanic, rfl, goto_pc_self⟩

theorem Inv.recovery_get_idle (b : Nat) (next : Nat → LogPc) (h : Inv s) (hrec : s.Recovering)
    (hpanic : s.panic = none) (hidle : s.cache.Idle 0) : ∃ i, s.Moves (s.bget 0 b next) (next i) := by
  refine h.recovery_get next hrec hpanic ?_ ?_
  · rintro ⟨i, hi, hhold, -⟩
    exact hhold (hidle i hi)
  · rw [Bcache.heldBy_of_idle hidle]
    exact Nat.zero_le 1

theorem recovery_release (hpanic : s.panic = none) (hready : s.cache.hold 0 i = .ready) :
    s.Moves (s.release 0 i pc) pc := by
  rw [release, Bcache.releasesleep, if_pos hready]
  exact ⟨_, rfl, hpanic, rfl, goto_pc_self⟩

theorem Recovering.commit (h : s.Recovering) (pc : LogPc) (hmoves : s.Moves (s.commitStep 0) pc)
    (hin : pc.inCommit) (hreads : ∀ i, pc ≠ .readHead (.write i)) (hrank : pc.rank < (s.pc 0).rank) :
    ∃ s', s.commitStep 0 = some s' ∧ RecoveryStep s s' := by
  obtain ⟨s', hs, hpanic, hboot, hpc⟩ := hmoves
  have hmove := (commitStep_effect hs).cache
  refine ⟨s', hs, hpanic, .inl ⟨by rw [hboot, h.booting], by rw [hpc]; exact hin,
    by rw [hpc]; exact hreads, ?_⟩, ?_⟩
  · intro q i hq
    rw [hmove.hold_other hq]
    exact h.others q i hq
  · have hle := hmove.rank_le
    rw [LogState.rank, LogState.rank, hpc]
    omega

section

variable (h : Inv s) (hrec : s.Recovering) (hpanic : s.panic = none)
include h hrec hpanic

section

variable (hset : s.Settled)
include hset

theorem Inv.recover_readHead (hpc : s.pc 0 = .readHead pos) :
    ∃ s', s.commitStep 0 = some s' ∧ RecoveryStep s s' := by
  have hstep : s.commitStep 0 = s.readHeadStep 0 pos := by rw [LogState.commitStep, hpc]
  have hcommit := hrec.commit
  have hready : ∀ {i b}, s.changes (s.pc 0) = none → (i, b) ∈ s.buffers (s.pc 0) →
      s.cache.hold 0 i = .ready := h.settled_ready hrec hset
  have hidle := h.settled_idle hrec hset
  rw [hstep] at hcommit ⊢
  rw [hpc] at hcommit hready hidle
  cases pos with
  | get =>
    have hfree := hidle rfl
    obtain ⟨i, hmoves⟩ := h.recovery_get_idle s.start (fun i => .readHead (.edit i)) hrec hpanic hfree
    refine hcommit (.readHead (.edit i)) ?_ rfl (by rintro _ ⟨⟩) (by simp [LogPc.rank, HeadPc.rank])
    rwa [LogState.readHeadStep, if_pos hfree]
  | edit i =>
    refine hcommit (.readHead (.release i)) ?_ rfl (by rintro _ ⟨⟩) (by simp [LogPc.rank, HeadPc.rank])
    rw [LogState.readHeadStep, if_pos (hready rfl mem_cons_self)]
    exact ⟨_, rfl, hpanic, rfl, goto_pc_self⟩
  | write i => exact absurd hpc (hrec.reads i)
  | release i =>
    refine hcommit (.install 0 .getLog) ?_ rfl (by rintro _ ⟨⟩)
      (by simp [LogPc.rank, CopyPc.rank, HeadPc.rank, LOGBLOCKS, MAXOPBLOCKS])
    exact recovery_release hpanic (hready rfl mem_cons_self)

theorem Inv.recover_writeHead (hpc : s.pc 0 = .writeHead true pos) :
    ∃ s', s.commitStep 0 = some s' ∧ RecoveryStep s s' := by
  have hstep : s.commitStep 0 = s.writeHeadStep 0 true pos := by rw [LogState.commitStep, hpc]
  have hcommit := hrec.commit
  have hready : ∀ {i b}, s.changes (s.pc 0) = none → (i, b) ∈ s.buffers (s.pc 0) →
      s.cache.hold 0 i = .ready := h.settled_ready hrec hset
  have hidle := h.settled_idle hrec hset
  have hchanged := (h.bufFacts 0).changed
  rw [hstep] at hcommit ⊢
  rw [hpc] at hcommit hready hidle hchanged
  cases pos with
  | get =>
    have hfree := hidle rfl
    obtain ⟨i, hmoves⟩ := h.recovery_get_idle s.start (fun i => .writeHead true (.edit i)) hrec hpanic hfree
    refine hcommit (.writeHead true (.edit i)) ?_ rfl (by rintro _ ⟨⟩)
      (by simp [LogPc.rank, HeadPc.rank])
    rwa [LogState.writeHeadStep, if_pos hfree]
  | edit i =>
    refine hcommit (.writeHead true (.write i)) ?_ rfl (by rintro _ ⟨⟩)
      (by simp [LogPc.rank, HeadPc.rank])
    rw [LogState.writeHeadStep, if_pos (hready rfl mem_cons_self)]
    exact ⟨_, rfl, hpanic, rfl, goto_pc_self⟩
  | write i =>
    refine hcommit (.writeHead true (.release i)) ?_ rfl (by rintro _ ⟨⟩)
      (by simp [LogPc.rank, HeadPc.rank])
    rw [LogState.writeHeadStep, if_pos (hchanged i _ rfl).1]
    exact ⟨_, rfl, hpanic, rfl, goto_pc_self⟩
  | release i =>
    refine hcommit .endCommit ?_ rfl (by rintro _ ⟨⟩) (by simp [LogPc.rank, HeadPc.rank])
    exact recovery_release hpanic (hready rfl mem_cons_self)

/-- The block of an entry is not among the buffers of recovery when it asks for it. -/
theorem Inv.recover_getHome {l : Nat} (hpc : s.pc 0 = .install tail (.getHome l))
    (htail : tail < s.lh.length) (next : Nat → LogPc) :
    ∃ d, s.Moves (s.bget 0 (s.entry tail) next) (next d) := by
  have hbuf := h.bufFacts 0
  rw [hpc] at hbuf
  have hnames := (hbuf.has l (s.logBlock tail) mem_cons_self).2
  have honly : ∀ i, s.cache.hold 0 i ≠ .free → i = l := by
    intro i hhold
    obtain ⟨b, hmem⟩ := hbuf.only rfl i (hset.active hhold)
    exact congrArg Prod.fst (mem_singleton.mp hmem)
  refine h.recovery_get next hrec hpanic ?_ ?_
  · rintro ⟨i, -, hhold, hentry⟩
    rw [honly i hhold] at hentry
    have hroom := h.entries.room
    refine not_home_logBlock (s := s) (i := tail) (by omega) ?_
    rw [← hnames.2, hentry.2]
    exact h.home_entry htail
  · have hl : l < NBUF := (h.coherent.inUse (p := 0) (i := l) (by
      rw [h.settled_ready hrec hset (by rw [hpc]; rfl) (by rw [hpc]; exact mem_cons_self)]
      decide)).2.1
    rw [Bcache.heldBy, Finset.sum_eq_single l]
    · cases s.cache.hold 0 l <;> decide
    · intro i _ hne
      by_contra hrefs
      exact hne (honly i fun hfree => hrefs (by rw [hfree]; rfl))
    · exact fun hnot => absurd (Finset.mem_range.mpr hl) hnot

theorem Inv.recover_install {pos : CopyPc} (hpc : s.pc 0 = .install tail pos) :
    ∃ s', s.commitStep 0 = some s' ∧ RecoveryStep s s' := by
  have hstep : s.commitStep 0 = s.installStep 0 tail pos := by rw [LogState.commitStep, hpc]
  have hcommit := hrec.commit
  have hready : ∀ {i b}, s.changes (s.pc 0) = none → (i, b) ∈ s.buffers (s.pc 0) →
      s.cache.hold 0 i = .ready := h.settled_ready hrec hset
  have hidle := h.settled_idle hrec hset
  have hchanged := (h.bufFacts 0).changed
  have hfacts := h.logFacts 0
  have hroom := h.entries.room
  rw [hstep] at hcommit ⊢
  rw [hpc] at hcommit hready hidle hchanged hfacts
  obtain ⟨-, -, hinside, -⟩ := hfacts
  cases pos with
  | getLog =>
    have hfree := hidle rfl
    by_cases htail : tail < s.lh.length
    · obtain ⟨l, hmoves⟩ := h.recovery_get_idle (s.logBlock tail)
        (fun l => .install tail (.getHome l)) hrec hpanic hfree
      refine hcommit (.install tail (.getHome l)) ?_ rfl (by rintro _ ⟨⟩)
        (by simp [LogPc.rank, CopyPc.rank])
      rwa [LogState.installStep, if_pos htail, if_pos hfree]
    · refine hcommit (.writeHead true .get) ?_ rfl (by rintro _ ⟨⟩)
        (by simp only [LogPc.rank, CopyPc.rank, HeadPc.rank]; omega)
      rw [LogState.installStep, if_neg htail]
      exact ⟨_, rfl, hpanic, rfl, goto_pc_self⟩
  | getHome l =>
    obtain ⟨d, hmoves⟩ := h.recover_getHome hrec hpanic hset hpc (hinside rfl)
      (fun d => .install tail (.copy l d))
    refine hcommit (.install tail (.copy l d)) ?_ rfl (by rintro _ ⟨⟩)
      (by simp [LogPc.rank, CopyPc.rank])
    rwa [LogState.installStep, if_pos (hready rfl mem_cons_self)]
  | copy l d =>
    refine hcommit (.install tail (.write l d)) ?_ rfl (by rintro _ ⟨⟩)
      (by simp [LogPc.rank, CopyPc.rank])
    rw [LogState.installStep, if_pos ⟨hready rfl mem_cons_self,
      hready rfl (mem_cons_of_mem _ mem_cons_self)⟩]
    dsimp only
    rw [if_pos hrec.booting]
    refine ⟨_, rfl, hpanic, rfl, ?_⟩
    exact update_self 0 (LogPc.install tail (.write l d)) s.pc
  | write l d =>
    refine hcommit (.install tail (.unpin l d)) ?_ rfl (by rintro _ ⟨⟩)
      (by simp [LogPc.rank, CopyPc.rank])
    rw [LogState.installStep, if_pos (hchanged d _ rfl).1]
    exact ⟨_, rfl, hpanic, rfl, goto_pc_self⟩
  | unpin l d =>
    refine hcommit (.install tail (.release l d)) ?_ rfl (by rintro _ ⟨⟩)
      (by simp [LogPc.rank, CopyPc.rank])
    rw [LogState.installStep, if_pos hrec.booting]
    exact ⟨_, rfl, hpanic, rfl, goto_pc_self⟩
  | release l d =>
    refine hcommit (.install tail (.finish l d)) ?_ rfl (by rintro _ ⟨⟩)
      (by simp [LogPc.rank, CopyPc.rank])
    exact recovery_release hpanic (hready rfl mem_cons_self)
  | finish l d =>
    have htail := hinside rfl
    refine hcommit (.install (tail + 1) .getLog) ?_ rfl (by rintro _ ⟨⟩)
      (by simp only [LogPc.rank, CopyPc.rank]; omega)
    rw [LogState.installStep, if_pos hset.returned]
    exact recovery_release hpanic (hready rfl mem_cons_self)

theorem Inv.recover_finish (hpc : s.pc 0 = .endCommit) :
    ∃ s', s.commitStep 0 = some s' ∧ RecoveryStep s s' := by
  rw [LogState.commitStep, hpc]
  refine ⟨_, if_pos (h.settled_idle hrec hset (by rw [hpc]; rfl)), hpanic, .inr ⟨rfl, rfl⟩, ?_⟩
  rw [LogState.rank, LogState.rank, goto_pc_self, hpc]
  exact Nat.add_lt_add_right (by decide) _

theorem Inv.recover_commit : ∃ s', s.commitStep 0 = some s' ∧ RecoveryStep s s' := by
  have hfirst := hrec.first
  have hfacts := h.logFacts 0
  cases hpc : s.pc 0 with
  | idle => rw [hpc] at hfirst; cases hfirst
  | op started logged => rw [hpc] at hfirst; cases hfirst
  | readHead pos => exact h.recover_readHead hrec hpanic hset hpc
  | writeLog tail pos =>
    rw [hpc] at hfacts
    exact absurd hrec.booting (by rw [hfacts.1]; decide)
  | writeHead clear pos =>
    cases clear with
    | false =>
      rw [hpc] at hfacts
      exact absurd hrec.booting (by rw [hfacts.1]; decide)
    | true => exact h.recover_writeHead hrec hpanic hset hpc
  | install tail pos => exact h.recover_install hrec hpanic hset hpc
  | endCommit => exact h.recover_finish hrec hpanic hset hpc

end

theorem Inv.recover_step : ∃ action s', s.next (.act 0 action) = some s' ∧ RecoveryStep s s' := by
  have hgo : ∀ action, (∃ s', s.act 0 action = some s' ∧ RecoveryStep s s') →
      ∃ action s', s.next (.act 0 action) = some s' ∧ RecoveryStep s s' := by
    rintro action ⟨s', hs, hstep⟩
    exact ⟨action, s', by rw [LogState.next, if_pos ⟨by decide, hpanic⟩, hs], hstep⟩
  by_cases hset : s.Settled
  · exact hgo .commit (h.recover_commit hrec hpanic hset)
  · rw [Settled, not_forall] at hset
    obtain ⟨i, hi⟩ := hset
    cases hhold : s.cache.hold 0 i with
    | waiting => exact hgo _ (h.acquire_step hrec hpanic hhold)
    | locked => exact hgo _ (h.read_step hrec hpanic hhold)
    | releasing => exact hgo _ (h.drop_step hrec hpanic hhold)
    | free => simp [hhold] at hi
    | ready => simp [hhold] at hi
    | dirty => simp [hhold] at hi

end

/-- Recovery makes nothing durable. -/
theorem Inv.durable_of_booting (h : Inv s) (hboot : s.booting) (hs : s.act p action = some s') :
    s'.durable = s.durable := by
  have hhistory := (act_effect hs).history
  generalize s.blockOp (.act p action) = op at hhistory
  cases hhistory with
  | keep _ hdurable _ => exact hdurable
  | modified i data _ _ _ hdurable _ => exact hdurable
  | recovered b data _ _ hdurable _ => exact hdurable
  | committed i hpc _ _ _ =>
    have hfacts := h.logFacts p
    rw [hpc] at hfacts
    exact absurd hboot (by rw [hfacts.1]; decide)

/-- Steps of the first process. -/
def ofFirst (e : LogEvent) : Prop := ∃ action, e = .act 0 action

/-- **Recovery ends.**  From a restart on any disk that a crash can leave, the first
process runs recovery to its end. -/
theorem Inv.recovery_ends (h : Inv s) :
    ∃ recovery s', (∀ e ∈ recovery, ofFirst e) ∧
      Machine.run LogState.next s (.crash :: recovery) = some s' ∧ Inv s' ∧ s'.start = s.start ∧
      s'.durable = s.durable ∧ s'.panic = none ∧ s'.booting = false ∧ s'.committing = false := by
  let P (r : LogState) : Prop := Inv r ∧ r.start = s.start ∧ r.durable = s.durable ∧
    r.panic = none ∧ (r.Recovering ∨ r.booting = false ∧ r.committing = false)
  have hstep : ∀ r, P r → ¬ r.booting = false →
      ∃ e r', ofFirst e ∧ r.next e = some r' ∧ P r' ∧ r'.rank < r.rank := by
    rintro r ⟨hinv, hstart, hdurable, hpanic, hrec⟩ hboot
    have hrec := hrec.resolve_right fun hend => hboot hend.1
    obtain ⟨action, r', hr, hstep⟩ := hinv.recover_step hrec hpanic
    have hact := (next_act hr).2.2
    exact ⟨_, r', ⟨action, rfl⟩, hr, ⟨hinv.next hr, (act_effect hact).start.trans hstart,
      (hinv.durable_of_booting hrec.booting hact).trans hdurable, hstep.panic, hstep.goesOn⟩,
      hstep.rank⟩
  have hstart : P (boot s.start s.disk s.durable s.commits) :=
    ⟨h.crash, rfl, rfl, rfl, .inl (boot_recovering _ _ _ _)⟩
  obtain ⟨recovery, s', hkind, hrun, ⟨hinv, hstart, hdurable, hpanic, hend⟩, hboot⟩ :=
    Machine.exists_run_of_rank rank hstep hstart
  refine ⟨recovery, s', hkind, by rw [Machine.run]; exact hrun, hinv, hstart, hdurable, hpanic,
    hboot, ?_⟩
  rcases hend with hrec | hend
  · rw [hrec.booting] at hboot
    cases hboot
  · exact hend.2

end LogState

end EAFITos
