/-
Buffers for a commit: the log pins up to `LOGBLOCKS` buffers and `NBUF` is no larger, so
a commit finds a buffer for a log block only while enough of the others are unused.
-/
import EAFITos.LogInstall

namespace EAFITos

open Finset List Option

namespace Bcache

variable {c : Bcache} {home : Nat → Prop} {disk store : Nat → Block} {pinned : List Nat} {p : Nat}

/-- The buffers a process has asked for. -/
def heldBy (c : Bcache) (p : Nat) : Nat := ∑ i ∈ range NBUF, (c.hold p i).refs

/-- The buffers that processes other than `p` have asked for. -/
def heldByOthers (c : Bcache) (p : Nat) : Nat := ∑ q ∈ (Finset.range NPROC).erase p, c.heldBy q

theorem heldBy_of_idle (h : c.Idle p) : c.heldBy p = 0 :=
  Finset.sum_eq_zero fun i hi => by rw [h i (List.mem_range.mpr (Finset.mem_range.mp hi))]; rfl

theorem sum_users (hp : p < NPROC) :
    ∑ i ∈ range NBUF, c.users i = c.heldBy p + c.heldByOthers p := by
  rw [heldByOthers, add_sum_erase _ _ (mem_range.mpr hp)]
  exact sum_comm

/-- At most one buffer is pinned for each pinned block. -/
theorem Coherent.sum_pins (h : Coherent home c disk store pinned) :
    ∑ i ∈ Finset.range NBUF, c.pins i ≤ pinned.length := by
  have hcount : ∑ i ∈ Finset.range NBUF, c.pins i =
      ((Finset.range NBUF).filter fun i => (c.buf i).dev = ROOTDEV ∧ (c.buf i).blockno ∈ pinned).card := by
    rw [Finset.card_filter]
    exact Finset.sum_congr rfl fun i hi => h.pins i (Finset.mem_range.mp hi)
  rw [hcount]
  refine le_trans (Finset.card_le_card_of_injOn (fun i => (c.buf i).blockno) (t := pinned.toFinset) ?_ ?_)
    pinned.toFinset_card_le
  · intro i hi
    exact List.mem_toFinset.mpr (Finset.mem_filter.mp hi).2.2
  · intro i hi j hj heq
    obtain ⟨hirange, hidev, -⟩ := Finset.mem_filter.mp hi
    obtain ⟨hjrange, hjdev, -⟩ := Finset.mem_filter.mp hj
    exact h.ok.names_unique (Finset.mem_range.mp hirange) (Finset.mem_range.mp hjrange) (by decide)
      ⟨hidev, rfl⟩ ⟨hjdev, heq.symm⟩

/-- With few pins and few buffers held, some buffer is unused. -/
theorem Coherent.exists_unused (h : Coherent home c disk store pinned) (hp : p < NPROC)
    (hroom : pinned.length + c.heldBy p + c.heldByOthers p < NBUF) :
    ∃ i, i < NBUF ∧ (c.buf i).refcnt = 0 := by
  have hrefs : ∑ i ∈ range NBUF, (c.buf i).refcnt =
      ∑ i ∈ range NBUF, c.users i + ∑ i ∈ range NBUF, c.pins i := by
    rw [← sum_add_distrib]
    exact Finset.sum_congr rfl fun i hi => h.ok.refs i (Finset.mem_range.mp hi)
  have hlt : ∑ i ∈ Finset.range NBUF, (c.buf i).refcnt < (Finset.range NBUF).card := by
    have hpins := h.sum_pins
    have husers := sum_users (c := c) hp
    rw [card_range]
    omega
  obtain ⟨i, hi, hzero⟩ := Tally.exists_eq_zero_of_sum_lt hlt
  exact ⟨i, Finset.mem_range.mp hi, hzero⟩

end Bcache

namespace LogState

variable {s s' : LogState} {p : Nat}

/-- Some buffer can serve a request for the block. -/
def Serves (s : LogState) (b : Nat) : Prop :=
  ∃ i, i < NBUF ∧ ((s.cache.buf i).refcnt = 0 ∨ (s.cache.buf i).names ROOTDEV b)

section

variable (h : Inv s)
include h

end

/-- One process asks for a block, logs it and releases the buffer. -/
def logOne (p i b : Nat) : List LogEvent :=
  [.act p (.get b), .act p (.acquiresleep i), .act p (.bread i), .act p (.logWrite i),
    .act p (.release i), .act p (.brelse i)]

/-- `log_write` returns, and nothing of the log or of a pin has changed. -/
structure Absorbs (s : LogState) (p i : Nat) (s' : LogState) : Prop where
  next : s.next (.act p (.logWrite i)) = some s'
  panic : s'.panic = none
  lh : s'.lh = s.lh
  pinned : s'.pinned = s.pinned
  pins : s'.cache.pins = s.cache.pins
  buf : s'.cache.buf = s.cache.buf

theorem logWrite_logged {started i : Nat} {logged : List Nat} (hpc : s.pc p = .op started logged)
    (hfilled : (s.cache.hold p i).filled) (hout : 1 ≤ s.outstanding)
    (hmem : (s.cache.buf i).blockno ∈ s.lh) :
    s.logWrite p i = some (if LOGBLOCKS ≤ s.lh.length then s.fail "too big a transaction" else
      (s.goto p (.op started (if (s.cache.buf i).blockno ∈ logged then logged
        else logged ++ [(s.cache.buf i).blockno]))).setCache (s.cache.setHold p i .ready)) := by
  rw [LogState.logWrite, hpc]
  dsimp only
  rw [if_pos hfilled, if_neg (Nat.not_lt.mpr hout), if_pos hmem]
  split <;> rfl

/-- **Absorption.**  In every run, with crashes or without and whatever the operations log, a
`log_write` of a block that is in the log already succeeds and changes nothing exactly if the log
is not full. -/
theorem absorbs_iff_room {ok : LogState → LogEvent → Prop} {started i : Nat} {logged : List Nat}
    (h : Reachable ok s) (hpanic : s.panic = none)
    (hpc : s.pc p = .op started logged) (hfilled : (s.cache.hold p i).filled)
    (hmem : (s.cache.buf i).blockno ∈ s.lh) :
    (∃ s', Absorbs s p i s') ↔ s.lh.length < LOGBLOCKS := by
  have hout := h.inv.phase.pos_outstanding (p := p) (by rw [hpc]; rfl)
  have hp := h.inv.phase.lt_of_ne_idle (p := p) (by rw [hpc]; simp)
  have hnext : s.next (.act p (.logWrite i)) = s.logWrite p i := if_pos ⟨hp, hpanic⟩
  rw [logWrite_logged hpc hfilled hout hmem] at hnext
  constructor
  · rintro ⟨s', habsorbs⟩
    by_contra hfull
    rw [if_pos (Nat.not_lt.mp hfull)] at hnext
    have heq := some.inj (hnext.symm.trans habsorbs.next)
    have hnone := habsorbs.panic
    rw [← heq] at hnone
    cases hnone
  · intro hroom
    rw [if_neg (Nat.not_le.mpr hroom)] at hnext
    exact ⟨_, hnext, hpanic, rfl, rfl, rfl, rfl⟩

/-- The operation of process 0 logs block 100, and has its buffer once more. -/
def logTwice : List LogEvent :=
  .act 0 .beginOp :: logOne 0 0 100 ++
    [.act 0 (.get 100), .act 0 (.acquiresleep 0), .act 0 (.bread 0)]

theorem absorbs_iff_room_twice : ∃ s s', Reachable (fun s e => s.fits e) s ∧ s.lh = [100] ∧
    Absorbs s 0 0 s' := by
  have hview : ((Machine.run (fun s e => if s.fits e then next s e else none) (fresh 2) logTwice).map
      fun s => (s.pc 0, s.panic, s.cache.hold 0 0, (s.cache.buf 0).blockno, s.lh)) =
      some (.op 0 [100], none, .ready, 100, [100]) := by decide +kernel
  obtain ⟨s, hrun, hs⟩ := map_eq_some_iff.mp hview
  simp only [Prod.mk.injEq] at hs
  obtain ⟨hpc, hpanic, hhold, hblock, hlh⟩ := hs
  have hreach : Reachable (fun s e => s.fits e) s :=
    (Machine.Reach.start (fresh_initial 2)).of_guarded_run (fun _ _ htest => htest) hrun
  obtain ⟨s', habsorbs⟩ := (absorbs_iff_room hreach hpanic hpc (by rw [hhold]; rfl)
    (by rw [hblock, hlh]; decide)).mpr (by rw [hlh]; decide)
  exact ⟨s, s', hreach, hlh, habsorbs⟩

/-- Three operations use up their shares, and the first one asks for its first block again. -/
def fullThenAgain : List LogEvent :=
  (List.range 3).map (fun p => .act p .beginOp) ++
    (List.range LOGBLOCKS).flatMap (fun i => logOne (i / MAXOPBLOCKS) i (100 + i)) ++
    [.act 0 (.get 100), .act 0 (.acquiresleep 0), .act 0 (.bread 0)]

set_option maxRecDepth 100000 in
/-- The check for room fails although the block needs none. -/
theorem full_log_refuses_absorption : ∃ s s', Reachable (fun s e => s.fits e) s ∧
    s.fits (.act 0 (.logWrite 0)) ∧ s.panic = none ∧ (s.cache.buf 0).blockno ∈ s.lh ∧
    s.next (.act 0 (.logWrite 0)) = some s' ∧ s'.panic = some "too big a transaction" := by
  have hview : ((Machine.run (fun s e => if s.fits e then next s e else none) (fresh 2)
      fullThenAgain).bind fun s => (s.next (.act 0 (.logWrite 0))).map fun s' =>
        (s.fits (.act 0 (.logWrite 0)), s.panic, decide ((s.cache.buf 0).blockno ∈ s.lh), s'.panic)) =
      some (true, none, true, some "too big a transaction") := by decide +kernel
  obtain ⟨s, hrun, hbind⟩ := Option.bind_eq_some_iff.mp hview
  obtain ⟨s', hnext, hs'⟩ := Option.map_eq_some_iff.mp hbind
  simp only [Prod.mk.injEq] at hs'
  obtain ⟨hfits, hpanic, hmem, hpanic'⟩ := hs'
  exact ⟨s, s', (Machine.Reach.start (fresh_initial 2)).of_guarded_run (fun _ _ htest => htest) hrun,
    hfits, hpanic, of_decide_eq_true hmem, hnext, hpanic'⟩

end LogState

end EAFITos
