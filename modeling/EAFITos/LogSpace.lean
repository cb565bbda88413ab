/-
Phases and space of the log: operations and a commit exclude each other, the admission
test of `begin_op` reserves what every outstanding operation may still log, and the log
is empty whenever nothing uses it.
-/
import EAFITos.LogSteps
import Mathlib.Algebra.BigOperators.Ring.Finset

namespace EAFITos

open Function List

namespace LogState

variable {s s' : LogState} {p q i b : Nat} {pc : LogPc} {e : LogEvent}

variable {logged : List Nat} {started : Nat}

/-! ## Phases -/

/-- What holds of the processes in every run: `outstanding` counts the operations, one
process commits or recovers whenever the flags say so, and no operation is outstanding
meanwhile. -/
structure Phase (s : LogState) : Prop where
  procs : ∀ p, NPROC ≤ p → s.pc p = .idle
  outstanding : s.outstanding = ∑ p ∈ Finset.range NPROC, (s.pc p).inOp
  committer : ∀ p, (s.pc p).inCommit → (s.committing ∨ s.booting) ∧ ∀ q, (s.pc q).inCommit → q = p
  reading : ∀ p, (s.pc p).reading → s.booting
  quiet : s.committing ∨ s.booting → s.outstanding = 0
  apart : s.booting → s.committing = false
  busy : s.committing ∨ s.booting → ∃ p, (s.pc p).inCommit

theorem Phase.of_eq {lh : List Nat} (h : Phase s) (hlog : { s with lh := lh }.SameLog s')
    (hpc : s'.pc = s.pc) : Phase s' := by
  obtain ⟨hout, hcommitting, -, hbooting⟩ := hlog
  constructor
  all_goals simp only [hout, hcommitting, hbooting, hpc]
  exacts [h.procs, h.outstanding, h.committer, h.reading, h.quiet, h.apart, h.busy]

/-- The counts after one process has moved. -/
theorem sum_goto {f : LogPc → Nat} (hp : p < NPROC) (hpc : s'.pc = Function.update s.pc p pc) :
    ∑ q ∈ Finset.range NPROC, f (s'.pc q) + f (s.pc p) =
      ∑ q ∈ Finset.range NPROC, f (s.pc q) + f pc := by
  have hsame : ∀ q ∈ Finset.range NPROC, q ≠ p → f (s'.pc q) = f (s.pc q) :=
    fun q _ hne => by rw [hpc, update_of_ne hne]
  have hchange : ∑ q ∈ Finset.range NPROC, f (s'.pc q) + f (s.pc p) =
      ∑ q ∈ Finset.range NPROC, f (s.pc q) + f (s'.pc p) :=
    Tally.sum_change (Finset.mem_range.mpr hp) hsame
  have hself : s'.pc p = pc := by rw [hpc, update_self]
  rwa [hself] at hchange

section

variable (h : Phase s)
include h

theorem Phase.lt_of_ne_idle (hpc : s.pc p ≠ .idle) : p < NPROC := by
  by_contra hge
  exact hpc (h.procs p (Nat.le_of_not_lt hge))

theorem Phase.le_sum (f : LogPc → Nat) (hpc : s.pc p ≠ .idle) :
    f (s.pc p) ≤ ∑ q ∈ Finset.range NPROC, f (s.pc q) :=
  Finset.single_le_sum (f := fun q => f (s.pc q)) (fun _ _ => Nat.zero_le _)
    (Finset.mem_range.mpr (h.lt_of_ne_idle hpc))

theorem Phase.pos_outstanding (hpc : (s.pc p).inOp = 1) : 1 ≤ s.outstanding := by
  have hne : s.pc p ≠ .idle := by intro hidle; rw [hidle] at hpc; cases hpc
  have hle := h.le_sum LogPc.inOp hne
  rwa [hpc, ← h.outstanding] at hle

/-- An outstanding operation keeps commits and recovery away. -/
theorem Phase.running (hpc : (s.pc p).inOp = 1) : s.committing = false ∧ s.booting = false := by
  have hpos := h.pos_outstanding hpc
  constructor
  · by_contra hcommitting
    have := h.quiet (.inl (by simpa using hcommitting))
    omega
  · by_contra hbooting
    have := h.quiet (.inr (by simpa using hbooting))
    omega

/-- Without commit and recovery no process is in them. -/
theorem Phase.alone (hcommitting : s.committing = false) (hbooting : s.booting = false) (q : Nat) :
    (s.pc q).inCommit = false := by
  by_contra hcommit
  rw [Bool.not_eq_false] at hcommit
  have hor := (h.committer q hcommit).1
  rw [hcommitting, hbooting] at hor
  simp at hor

/-- While a process commits, the others are idle or between operations. -/
theorem Phase.others (hin : (s.pc p).inCommit) (hq : q ≠ p) : (s.pc q).inCommit = false := by
  by_contra hcommit
  exact hq ((h.committer p hin).2 q (by simpa using hcommit))

theorem Phase.inOp_eq_zero (hzero : s.outstanding = 0) (q : Nat) : (s.pc q).inOp = 0 := by
  by_cases hq : s.pc q = .idle
  · rw [hq]
    rfl
  · have hle := h.le_sum LogPc.inOp hq
    rw [← h.outstanding, hzero] at hle
    exact Nat.le_zero.mp hle

end

theorem client_iff (hpc : pc.inCommit = false) (hcommitting : s.committing = false)
    (hbooting : s.booting = false) : pc.inCommit ↔ s.committing ∨ s.booting := by
  rw [hpc, hcommitting, hbooting]
  decide

/-- A process moves, and the counts follow. -/
theorem Phase.move (h : Phase s) (hp : p < NPROC) (hpc : s'.pc = Function.update s.pc p pc)
    (hout : s'.outstanding + (s.pc p).inOp = s.outstanding + pc.inOp)
    (halone : ∀ q, q ≠ p → (s.pc q).inCommit = false)
    (hin : pc.inCommit ↔ s'.committing ∨ s'.booting) (hread : pc.reading → s'.booting)
    (hquiet : pc.inCommit → s'.outstanding = 0)
    (hapart : s'.booting → s'.committing = false) : Phase s' := by
  have hother : ∀ q, q ≠ p → s'.pc q = s.pc q := fun q hq => by rw [hpc, update_of_ne hq]
  have hself : s'.pc p = pc := by rw [hpc, update_self]
  have honly : ∀ q, (s'.pc q).inCommit → q = p := by
    intro q hq
    by_contra hqp
    rw [hother q hqp, halone q hqp] at hq
    cases hq
  refine ⟨?_, ?_, ?_, ?_, fun hor => hquiet (hin.mpr hor), hapart,
    fun hor => ⟨p, by rw [hself]; exact hin.mpr hor⟩⟩
  · intro q hq
    rw [hother q (by omega)]
    exact h.procs q hq
  · have hsum := sum_goto (f := LogPc.inOp) hp hpc
    have := h.outstanding
    omega
  · intro q hq
    obtain rfl := honly q hq
    rw [hself] at hq
    exact ⟨hin.mp hq, honly⟩
  · intro q hq
    obtain rfl := honly q (LogPc.inCommit_of_reading hq)
    rw [hself] at hq
    exact hread hq

theorem Phase.beginOp (h : Phase s) (hp : p < NPROC) (hs : s.beginOp p = some s') : Phase s' := by
  obtain ⟨hidle, hbooting, hcommitting, -, rfl⟩ := beginOp_spec hs
  refine h.move hp rfl (by rw [hidle]; rfl) (fun q _ => h.alone hcommitting hbooting q)
    (client_iff rfl hcommitting hbooting) nofun nofun (fun _ => hcommitting)

theorem Phase.logWrite (h : Phase s) (hs : s.logWrite p i = some s') : Phase s' := by
  obtain ⟨started, logged, hpc, -, hwrite⟩ := logWrite_spec hs
  have hop : (s.pc p).inOp = 1 := by rw [hpc]; rfl
  have hp := h.lt_of_ne_idle (p := p) (by rw [hpc]; simp)
  obtain ⟨hcommitting, hbooting⟩ := h.running hop
  have halone : ∀ q, q ≠ p → (s.pc q).inCommit = false := fun q _ => h.alone hcommitting hbooting q
  cases hwrite with
  | tooBig _ => exact h.of_eq (SameLog.refl s) rfl
  | outside _ => exact h.of_eq (SameLog.refl s) rfl
  | absorbed _ _ =>
    exact h.move hp rfl (by rw [hop]; rfl) halone (client_iff rfl hcommitting hbooting)
      nofun nofun h.apart
  | added _ _ =>
    exact h.move hp rfl (by rw [hop]; rfl) halone (client_iff rfl hcommitting hbooting)
      nofun nofun h.apart

theorem Phase.endOp (h : Phase s) (hs : s.endOp p = some s') : Phase s' := by
  obtain ⟨⟨started, logged, hpc⟩, -, hend⟩ := endOp_spec hs
  have hop : (s.pc p).inOp = 1 := by rw [hpc]; rfl
  have hp := h.lt_of_ne_idle (p := p) (by rw [hpc]; simp)
  obtain ⟨hcommitting, hbooting⟩ := h.running hop
  have hpos := h.pos_outstanding hop
  have halone : ∀ q, q ≠ p → (s.pc q).inCommit = false := fun q _ => h.alone hcommitting hbooting q
  cases hend with
  | failed htrue =>
    rw [hcommitting] at htrue
    cases htrue
  | commit _ hlast =>
    refine h.move hp rfl ?_ halone ⟨fun _ => .inl rfl, fun _ => by split <;> rfl⟩ ?_ (fun _ => hlast) ?_
    · rw [hop]
      split <;> exact Nat.sub_add_cancel hpos
    · intro hread
      split at hread <;> cases hread
    · intro htrue
      rw [hbooting] at htrue
      cases htrue
  | leave _ _ =>
    exact h.move hp rfl (by rw [hop]; exact Nat.sub_add_cancel hpos) halone
      (client_iff rfl hcommitting hbooting) nofun nofun (fun _ => hcommitting)

theorem Phase.commitStep (h : Phase s) (hs : s.commitStep p = some s') : Phase s' := by
  obtain ⟨hin, hmove⟩ := commitStep_move hs
  have hp : p < NPROC := h.lt_of_ne_idle fun hidle => by rw [hidle] at hin; cases hin
  have hnone := LogPc.inOp_of_inCommit hin
  obtain ⟨hor, -⟩ := h.committer p hin
  have hothers : ∀ q, q ≠ p → (s.pc q).inCommit = false := fun q => h.others hin
  -- every step but the last one leaves the process in `commit`
  have hgo : ∀ {lh : List Nat} {pc : LogPc}, { s with lh := lh }.SameLog s' →
      s'.pc = Function.update s.pc p pc → pc.inCommit → (pc.reading → (s.pc p).reading) →
      Phase s' := by
    rintro lh pc ⟨hout, hcommitting, -, hbooting⟩ hpc hin' hread
    refine h.move hp hpc (by rw [hnone, hout, LogPc.inOp_of_inCommit hin']) hothers ?_ ?_ ?_ ?_
    · rw [hcommitting, hbooting]
      exact ⟨fun _ => hor, fun _ => hin'⟩
    · rw [hbooting]
      exact fun hr => h.reading p (hread hr)
    · rw [hout]
      exact fun _ => h.quiet hor
    · rw [hcommitting, hbooting]
      exact h.apart
  cases hmove with
  | stay hlog hpc => exact h.of_eq hlog hpc
  | move pc hlog hpc hin' hread _ =>
    exact hgo hlog hpc hin' fun hr => by rw [hread] at hr; cases hr
  | clear pc hlog hpc hin' hread =>
    exact hgo hlog hpc hin' fun hr => by rw [hread] at hr; cases hr
  | read pc lh hreading hlog hpc hin' => exact hgo hlog hpc hin' fun _ => hreading
  | finish hpc hs' =>
    subst hs'
    exact h.move hp rfl (by rw [hnone]; rfl) hothers (client_iff rfl rfl rfl)
      nofun nofun (fun _ => rfl)

theorem boot_phase (start : Nat) (disk durable : Nat → Block) (commits : Nat) :
    Phase (boot start disk durable commits) := by
  have hother : ∀ q, q ≠ 0 → (boot start disk durable commits).pc q = .idle :=
    fun q hq => by simp [boot, update_of_ne hq]
  have hfirst : (boot start disk durable commits).pc 0 = .readHead .get := by simp [boot]
  have hzero : ∀ q, ((boot start disk durable commits).pc q).inOp = 0 := by
    intro q
    by_cases hq : q = 0
    · rw [hq, hfirst]
      rfl
    · rw [hother q hq]
      rfl
  refine ⟨fun q hq => hother q ?_, ?_, fun q hq => ⟨.inr rfl, fun r hr => ?_⟩, fun _ _ => rfl,
    fun _ => rfl, fun _ => rfl, fun _ => ⟨0, rfl⟩⟩
  · rintro rfl
    exact absurd hq (by decide)
  · rw [Finset.sum_eq_zero fun q _ => hzero q]
    rfl
  · have honly : ∀ q, ((boot start disk durable commits).pc q).inCommit → q = 0 := by
      intro q hq
      by_contra hne
      rw [hother q hne] at hq
      cases hq
    rw [honly q hq, honly r hr]

theorem Phase.setCache {cache : Option Bcache} (h : Phase s)
    (hs : cache.map s.setCache = some s') : Phase s' := by
  rw [Option.map_eq_some_iff] at hs
  obtain ⟨c, -, rfl⟩ := hs
  exact h.of_eq (SameLog.refl s) rfl

theorem Phase.next (h : Phase s) (hs : s.next e = some s') : Phase s' := by
  cases e with
  | crash =>
    cases hs
    exact boot_phase _ _ _ _
  | act p action =>
    obtain ⟨hp, -, hact⟩ := next_act hs
    cases action <;> rw [act] at hact
    case acquiresleep i => exact h.setCache hact
    case bread i => exact h.setCache hact
    case brelse i => exact h.setCache hact
    case beginOp => exact h.beginOp hp hact
    case get b =>
      obtain ⟨-, -, -, -, hget⟩ := clientGet_spec hact
      obtain ⟨hlog, hpc | ⟨i, hpc⟩⟩ := bget_log hget
      · exact h.of_eq hlog hpc
      · exact h.of_eq hlog (by rw [hpc, update_eq_self])
    case modify i data =>
      obtain ⟨-, -, rfl⟩ := modify_spec hact
      exact h.of_eq (SameLog.refl s) rfl
    case logWrite i => exact h.logWrite hact
    case release i =>
      obtain ⟨hlog, hpc⟩ := release_log (clientRelease_spec hact).2
      exact h.of_eq hlog (by rw [hpc, update_eq_self])
    case endOp => exact h.endOp hact
    case commit => exact h.commitStep hact

theorem Initial.phase (h : Initial s) : Phase s := by
  have hidle : ∀ (f : LogPc → Bool) p, f .idle = false → ¬ f (s.pc p) :=
    fun f p hf => by rw [h.pc p, hf]; decide
  refine ⟨fun p _ => h.pc p, ?_, fun p hp => absurd hp (hidle LogPc.inCommit p rfl),
    fun p hp => absurd hp (hidle LogPc.reading p rfl), fun _ => h.outstanding, fun _ => h.committing,
    fun hor => ?_⟩
  · rw [h.outstanding, Finset.sum_eq_zero fun p _ => by rw [h.pc p]; rfl]
  · rw [h.committing, h.booting] at hor
    simp at hor

/-! ## Space -/

/-- What holds of the log's space in a run without a crash. -/
structure Space (s : LogState) : Prop where
  phase : Phase s
  booting : s.booting = false
  room : s.lh.length + ∑ p ∈ Finset.range NPROC, (s.pc p).reserve ≤ LOGBLOCKS
  nodup : s.lh.Nodup
  logged : ∀ p started logged, s.pc p = .op started logged →
    logged ⊆ s.lh ∧ logged.length ≤ MAXOPBLOCKS
  empty : s.outstanding = 0 → s.committing = false → s.lh = []
  cleared : ∀ p, (s.pc p).cleared → s.lh = []

/-- No crash, and every operation logs at most `MAXOPBLOCKS` distinct blocks. -/
def fits (s : LogState) : LogEvent → Bool
  | .act p (.logWrite i) =>
    match s.pc p with
    | .op _ logged => (s.cache.buf i).blockno ∈ logged ∨ logged.length < MAXOPBLOCKS
    | _ => true
  | .act _ _ => true
  | .crash => false

theorem Space.of_eq (h : Space s) (hphase : Phase s') (hlog : s.SameLog s') (hpc : s'.pc = s.pc) :
    Space s' := by
  obtain ⟨hout, hcommitting, hlh, hbooting⟩ := hlog
  refine ⟨hphase, ?_, ?_, ?_, ?_, ?_, ?_⟩
  all_goals simp only [hout, hcommitting, hlh, hbooting, hpc]
  exacts [h.booting, h.room, h.nodup, h.logged, h.empty, h.cleared]

theorem sum_reserve_le (s : LogState) :
    ∑ p ∈ Finset.range NPROC, (s.pc p).reserve ≤
      (∑ p ∈ Finset.range NPROC, (s.pc p).inOp) * MAXOPBLOCKS := by
  rw [Finset.sum_mul]
  refine Finset.sum_le_sum fun p _ => ?_
  cases s.pc p <;> simp [LogPc.reserve, LogPc.inOp]

section

variable (h : Space s) (hphase : Phase s')
include h hphase

/-- A process becomes idle or goes on with an operation while nobody commits. -/
theorem Space.move (hp : p < NPROC) (hcommitting : s'.committing = false)
    (hbooting : s'.booting = false) (hpc : s'.pc = Function.update s.pc p pc)
    (hroom : s'.lh.length + ∑ q ∈ Finset.range NPROC, (s.pc q).reserve + pc.reserve ≤
      LOGBLOCKS + (s.pc p).reserve) (hnodup : s'.lh.Nodup) (hsub : s.lh ⊆ s'.lh)
    (hlogged : ∀ started logged, pc = .op started logged →
      logged ⊆ s'.lh ∧ logged.length ≤ MAXOPBLOCKS) (hempty : s'.outstanding = 0 → s'.lh = []) :
    Space s' := by
  have hother : ∀ q, q ≠ p → s'.pc q = s.pc q := fun q hq => by rw [hpc, update_of_ne hq]
  have hself : s'.pc p = pc := by rw [hpc, update_self]
  refine ⟨hphase, hbooting, ?_, hnodup, ?_, fun hzero _ => hempty hzero, ?_⟩
  · have hsum := sum_goto (f := LogPc.reserve) hp hpc
    omega
  · intro q started logged hq
    by_cases hqp : q = p
    · rw [hqp, hself] at hq
      exact hlogged started logged hq
    · rw [hother q hqp] at hq
      obtain ⟨hmem, hlen⟩ := h.logged q started logged hq
      exact ⟨fun x hx => hsub (hmem hx), hlen⟩
  · intro q hq
    have hcommit := LogPc.inCommit_of_cleared hq
    rw [hphase.alone hcommitting hbooting q] at hcommit
    cases hcommit

theorem Space.beginOp (hp : p < NPROC) (hs : s.beginOp p = some s') : Space s' := by
  obtain ⟨hidle, hbooting, hcommitting, hroom, rfl⟩ := beginOp_spec hs
  refine h.move hphase hp hcommitting hbooting rfl ?_ h.nodup (fun x hx => hx) ?_
    fun hzero => absurd hzero (Nat.succ_ne_zero _)
  · -- the new operation and the reservations of the others pass the admission test together
    have hle := sum_reserve_le s
    rw [← h.phase.outstanding] at hle
    have hnew : (LogPc.op s.commits []).reserve = MAXOPBLOCKS := rfl
    have hsame : ({ s with outstanding := s.outstanding + 1 }.goto p (.op s.commits [])).lh = s.lh := rfl
    rw [hnew, hsame]
    rw [Nat.add_mul] at hroom
    omega
  · intro started logged heq
    cases heq
    exact ⟨nil_subset _, Nat.zero_le _⟩

/-- Space after a `log_write`: the block is in the log, and the operation's share shrinks
by what the log grows. -/
theorem Space.logging {b : Nat} (hpc : s.pc p = .op started logged)
    (hfits : b ∈ logged ∨ logged.length < MAXOPBLOCKS)
    (hlh : s'.lh = if b ∈ s.lh then s.lh else s.lh ++ [b])
    (hpc' : s'.pc = Function.update s.pc p (logging started logged b))
    (hout : s'.outstanding = s.outstanding) (hcommitting : s'.committing = s.committing)
    (hbooting : s'.booting = s.booting) : Space s' := by
  have hne : s.pc p ≠ .idle := by rw [hpc]; simp
  have hop : (s.pc p).inOp = 1 := by rw [hpc]; rfl
  obtain ⟨hfree, hrun⟩ := h.phase.running hop
  have hpos := h.phase.pos_outstanding hop
  obtain ⟨hsub, hlen⟩ := h.logged p started logged hpc
  have hroom := h.room
  have hold : (s.pc p).reserve = MAXOPBLOCKS - logged.length := by rw [hpc]; rfl
  have hmem : b ∈ s'.lh := by
    rw [hlh]
    split <;> simp_all
  have hgrow : s.lh ⊆ s'.lh := by
    rw [hlh]
    split
    · exact fun x hx => hx
    · exact subset_append_left _ _
  refine h.move hphase (h.phase.lt_of_ne_idle hne) (hcommitting.trans hfree) (hbooting.trans hrun)
    hpc' ?_ ?_ hgrow ?_ ?_
  · rw [hold, LogState.logging, LogPc.reserve]
    have hlength : s'.lh.length ≤ s.lh.length + 1 ∧ (b ∈ logged → s'.lh.length = s.lh.length) := by
      rw [hlh]
      split
      · exact ⟨Nat.le_succ _, fun _ => rfl⟩
      · rename_i hnew
        exact ⟨by simp, fun hb => absurd (hsub hb) hnew⟩
    split
    case isTrue hb =>
      have := hlength.2 hb
      omega
    case isFalse hb =>
      have : logged.length < MAXOPBLOCKS := hfits.resolve_left hb
      rw [length_append, length_singleton]
      omega
  · rw [hlh]
    split
    · exact h.nodup
    · rename_i hnew
      exact nodup_append.mpr ⟨h.nodup, nodup_singleton b,
        fun x hx y hy heq => hnew (by rw [mem_singleton] at hy; exact hy ▸ heq ▸ hx)⟩
  · intro started' logged' heq
    obtain ⟨-, rfl⟩ := heq
    split
    case isTrue hb => exact ⟨fun x hx => hgrow (hsub hx), hlen⟩
    case isFalse hb =>
      have : logged.length < MAXOPBLOCKS := hfits.resolve_left hb
      refine ⟨append_subset.mpr ⟨fun x hx => hgrow (hsub hx), by simpa using hmem⟩, ?_⟩
      rw [length_append, length_singleton]
      omega
  · intro hzero
    omega

end

theorem fits_logWrite (h : s.fits (.act p (.logWrite i))) (hpc : s.pc p = .op started logged) :
    (s.cache.buf i).blockno ∈ logged ∨ logged.length < MAXOPBLOCKS := by
  rw [fits, hpc] at h
  simpa using h

section

variable (h : Space s) (hphase : Phase s')
include h hphase

theorem Space.logWrite (hfits : s.fits (.act p (.logWrite i))) (hs : s.logWrite p i = some s') :
    Space s' := by
  obtain ⟨started, logged, hpc, -, hwrite⟩ := logWrite_spec hs
  have hshare := fits_logWrite hfits hpc
  cases hwrite with
  | tooBig hbig => exact h.of_eq hphase (SameLog.refl s) rfl
  | outside hout => exact h.of_eq hphase (SameLog.refl s) rfl
  | absorbed hroom hmem =>
    exact h.logging hphase hpc hshare (by rw [if_pos hmem]; rfl) rfl rfl rfl rfl
  | added hroom hnew => exact h.logging hphase hpc hshare (by rw [if_neg hnew]) rfl rfl rfl rfl

/-- A step into `commit`, or in it, that leaves the log as it is or empties it. -/
theorem Space.commit (hcommitting : s'.committing) (hbooting : s'.booting = false)
    (hpc : s'.pc = Function.update s.pc p pc) (hlh : s'.lh = s.lh ∨ s'.lh = []) (hin : pc.inCommit)
    (hcleared : pc.cleared → s'.lh = []) : Space s' := by
  have hself : s'.pc p = pc := by rw [hpc, update_self]
  have hnone := hphase.inOp_eq_zero (hphase.quiet (.inl hcommitting))
  refine ⟨hphase, hbooting, ?_, ?_, ?_, ?_, ?_⟩
  · rw [Finset.sum_eq_zero fun q _ => LogPc.reserve_of_inOp (hnone q)]
    have := h.room
    rcases hlh with hlh | hlh
    · rw [hlh]
      omega
    · rw [hlh]
      exact Nat.zero_le _
  · rcases hlh with hlh | hlh
    · exact hlh ▸ h.nodup
    · exact hlh ▸ nodup_nil
  · intro q started logged hq
    have hq0 := hnone q
    rw [hq] at hq0
    cases hq0
  · intro _ hfalse
    rw [hcommitting] at hfalse
    cases hfalse
  · intro q hq
    have honly := (hphase.committer p (by rw [hself]; exact hin)).2 q (LogPc.inCommit_of_cleared hq)
    rw [honly, hself] at hq
    exact hcleared hq

theorem Space.endOp (hs : s.endOp p = some s') : Space s' := by
  obtain ⟨⟨started, logged, hpc⟩, -, hend⟩ := endOp_spec hs
  have hp := h.phase.lt_of_ne_idle (p := p) (by rw [hpc]; simp)
  obtain ⟨hfree, hrun⟩ := h.phase.running (p := p) (by rw [hpc]; rfl)
  cases hend with
  | failed hcommitting =>
    rw [hfree] at hcommitting
    cases hcommitting
  | commit _ hlast =>
    refine h.commit hphase rfl hrun rfl (.inl rfl) ?_ ?_
    · split <;> rfl
    · intro hcleared
      split at hcleared
      · cases hcleared
      · rename_i hnil
        exact length_eq_zero_iff.mp (Nat.eq_zero_of_not_pos hnil)
  | leave _ hmore =>
    refine h.move hphase hp hfree hrun rfl ?_ h.nodup (fun x hx => hx)
      nofun fun hzero => absurd hzero hmore
    have hroom := h.room
    have hsame : ({ s with outstanding := s.outstanding - 1 }.goto p .idle).lh = s.lh := rfl
    rw [hsame, show LogPc.idle.reserve = 0 from rfl]
    omega

theorem Space.commitStep (hs : s.commitStep p = some s') : Space s' := by
  obtain ⟨hin, hmove⟩ := commitStep_move hs
  have hcommitting : s.committing := by
    have hor := (h.phase.committer p hin).1
    rw [h.booting] at hor
    simpa using hor
  cases hmove with
  | stay hlog hpc => exact h.of_eq hphase hlog hpc
  | move pc hlog hpc hin' hread hcleared =>
    obtain ⟨-, hcommit, hlh, hbooting⟩ := hlog
    exact h.commit hphase (hcommit ▸ hcommitting) (hbooting.trans h.booting) hpc (.inl hlh) hin'
      fun hc => hlh ▸ h.cleared p (hcleared hc)
  | clear pc hlog hpc hin' hread =>
    obtain ⟨-, hcommit, hlh, hbooting⟩ := hlog
    exact h.commit hphase (hcommit ▸ hcommitting) (hbooting.trans h.booting) hpc (.inr hlh) hin'
      fun _ => hlh
  | read pc lh hreading hlog hpc hin' =>
    have hboot := h.phase.reading p hreading
    rw [h.booting] at hboot
    cases hboot
  | finish hpc hs' =>
    subst hs'
    have hp : p < NPROC := h.phase.lt_of_ne_idle fun hidle => by rw [hidle] at hin; cases hin
    have hempty := h.cleared p (by rw [hpc]; rfl)
    have hsame : ({ s with committing := false, booting := false }.goto p .idle).lh = s.lh := rfl
    have hroom := h.room
    refine h.move hphase hp rfl rfl rfl ?_ h.nodup (fun x hx => hx) nofun fun _ => hempty
    rw [hsame, show LogPc.idle.reserve = 0 from rfl]
    omega

theorem Space.setCache {cache : Option Bcache} (hs : cache.map s.setCache = some s') :
    Space s' := by
  rw [Option.map_eq_some_iff] at hs
  obtain ⟨c, -, rfl⟩ := hs
  exact h.of_eq hphase (SameLog.refl s) rfl

end

theorem Space.next (h : Space s) (hfits : s.fits e) (hs : s.next e = some s') : Space s' := by
  have hphase := h.phase.next hs
  cases e with
  | crash => cases hfits
  | act p action =>
    obtain ⟨hp, -, hact⟩ := next_act hs
    cases action <;> rw [act] at hact
    case acquiresleep i => exact h.setCache hphase hact
    case bread i => exact h.setCache hphase hact
    case brelse i => exact h.setCache hphase hact
    case beginOp => exact h.beginOp hphase hp hact
    case get b =>
      obtain ⟨-, -, -, -, hget⟩ := clientGet_spec hact
      obtain ⟨hlog, hpc | ⟨i, hpc⟩⟩ := bget_log hget
      · exact h.of_eq hphase hlog hpc
      · exact h.of_eq hphase hlog (by rw [hpc, update_eq_self])
    case modify i data =>
      obtain ⟨-, -, rfl⟩ := modify_spec hact
      exact h.of_eq hphase (SameLog.refl s) rfl
    case logWrite i => exact h.logWrite hphase hfits hact
    case release i =>
      obtain ⟨hlog, hpc⟩ := release_log (clientRelease_spec hact).2
      exact h.of_eq hphase hlog (by rw [hpc, update_eq_self])
    case endOp => exact h.endOp hphase hact
    case commit => exact h.commitStep hphase hact

theorem Initial.space (h : Initial s) : Space s := by
  refine ⟨h.phase, h.booting, ?_, ?_, ?_, fun _ _ => h.lh, fun _ _ => h.lh⟩
  · rw [Finset.sum_eq_zero fun p _ => by rw [h.pc p]; rfl, h.lh]
    exact Nat.zero_le _
  · exact h.lh ▸ nodup_nil
  · intro p started logged hpc
    rw [h.pc p] at hpc
    cases hpc

theorem Reachable.space {ok : LogState → LogEvent → Prop} (hok : ∀ s e, ok s e → s.fits e)
    (h : Reachable ok s) : Space s := Machine.Reach.invariant (fun _ => Initial.space)
    (fun s e _ hs hstep hnext => hs.next (hok s e hstep) hnext) h

/-- An operation with room left in its share finds room in the log. -/
theorem Space.lt_of_share (h : Space s) (hpc : s.pc p = .op started logged)
    (hshare : logged.length < MAXOPBLOCKS) :
    s.lh.length < LOGBLOCKS := by
  have hle := h.phase.le_sum LogPc.reserve (p := p) (by rw [hpc]; simp)
  have hreserve : (s.pc p).reserve = MAXOPBLOCKS - logged.length := by rw [hpc]; rfl
  have hroom := h.room
  omega

theorem Space.logWrite_some (h : Space s) (hpanic : s.panic = none)
    (hpc : s.pc p = .op started logged) (hshare : logged.length < MAXOPBLOCKS)
    (hfilled : (s.cache.hold p i).filled) :
    ∃ s', s.next (.act p (.logWrite i)) = some s' ∧ s'.panic = none ∧
      (s.cache.buf i).blockno ∈ s'.lh := by
  have hne : s.pc p ≠ .idle := by rw [hpc]; simp
  have hroom := h.lt_of_share hpc hshare
  have hout := h.phase.pos_outstanding (p := p) (by rw [hpc]; rfl)
  rw [LogState.next, if_pos ⟨h.phase.lt_of_ne_idle hne, hpanic⟩, act, LogState.logWrite, hpc]
  dsimp only
  rw [if_pos hfilled, if_neg (Nat.not_le.mpr hroom), if_neg (Nat.not_lt.mpr hout)]
  split
  case isTrue hmem => exact ⟨_, rfl, hpanic, hmem⟩
  case isFalse => exact ⟨_, rfl, hpanic, by simp⟩

theorem Space.endOp_panic (h : Space s) (hs : s.next (.act p .endOp) = some s') :
    s'.panic = none := by
  obtain ⟨-, hpanic, hact⟩ := next_act hs
  obtain ⟨⟨started, logged, hpc⟩, -, hend⟩ := endOp_spec hact
  have hfree := (h.phase.running (p := p) (by rw [hpc]; rfl)).1
  cases hend with
  | failed hcommitting =>
    rw [hfree] at hcommitting
    cases hcommitting
  | commit _ _ => exact hpanic
  | leave _ _ => exact hpanic

theorem Space.logWrite_none (h : Space s) (hcommitting : s.committing) :
    s.next (.act p (.logWrite i)) = none := by
  by_contra hsome
  obtain ⟨s', hs⟩ := Option.ne_none_iff_exists'.mp hsome
  obtain ⟨-, -, hact⟩ := next_act hs
  obtain ⟨started, logged, hpc, -, -⟩ := logWrite_spec hact
  rw [(h.phase.running (p := p) (by rw [hpc]; rfl)).1] at hcommitting
  cases hcommitting

theorem Space.beginOp_some (h : Space s) (hp : p < NPROC) (hpanic : s.panic = none)
    (hpc : s.pc p = .idle) (hout : s.outstanding = 0) (hcommitting : s.committing = false) :
    ∃ s', s.next (.act p .beginOp) = some s' := by
  have hadmit : s.lh.length + (s.outstanding + 1) * MAXOPBLOCKS ≤ LOGBLOCKS := by
    rw [h.empty hout hcommitting, hout]
    decide
  exact ⟨_, by rw [LogState.next, if_pos ⟨hp, hpanic⟩, act, LogState.beginOp,
    if_pos ⟨hpc, h.booting, hcommitting, hadmit⟩]⟩

/-- **Space in the log.**  While every operation logs at most `MAXOPBLOCKS` distinct blocks,
the log holds at most `LOGBLOCKS` distinct ones, an operation below its share can log one
more, nothing is outstanding or logged during a commit, and without operations and commit
the log is empty and `begin_op` goes through. -/
theorem log_space (h : Reachable (fun s e => s.fits e) s) :
    s.lh.length ≤ LOGBLOCKS ∧ s.lh.Nodup ∧
    (∀ p i started logged, s.pc p = .op started logged → logged.length < MAXOPBLOCKS →
      s.panic = none → (s.cache.hold p i).filled →
      ∃ s', s.next (.act p (.logWrite i)) = some s' ∧ s'.panic = none ∧
        (s.cache.buf i).blockno ∈ s'.lh) ∧
    (s.committing → s.outstanding = 0) ∧
    (∀ p s', s.next (.act p .endOp) = some s' → s'.panic = none) ∧
    (s.committing → ∀ p i, s.next (.act p (.logWrite i)) = none) ∧
    (s.outstanding = 0 → s.committing = false → s.lh = [] ∧
      ∀ p, p < NPROC → s.panic = none → s.pc p = .idle →
        ∃ s', s.next (.act p .beginOp) = some s') := by
  have hspace := h.space fun _ _ hfits => hfits
  refine ⟨Nat.le_of_add_right_le hspace.room, hspace.nodup, ?_,
    fun hcommitting => hspace.phase.quiet (.inl hcommitting), ?_, ?_, ?_⟩
  · intro p i started logged hpc hshare hpanic hfilled
    exact hspace.logWrite_some hpanic hpc hshare hfilled
  · exact fun p s' hs => hspace.endOp_panic hs
  · exact fun hcommitting p i => hspace.logWrite_none hcommitting
  · intro hout hcommitting
    exact ⟨hspace.empty hout hcommitting,
      fun p hp hpanic hpc => hspace.beginOp_some hp hpanic hpc hout hcommitting⟩

/-- One process begins an operation and has the buffer of block 50. -/
def beginRead : List LogEvent :=
  [.act 0 .beginOp, .act 0 (.get 50), .act 0 (.acquiresleep 0), .act 0 (.bread 0)]

theorem log_space_beginRead : ∃ s, Reachable (fun s e => s.fits e) s ∧ s.outstanding = 1 ∧
    ∃ s', s.next (.act 0 (.logWrite 0)) = some s' ∧ s'.panic = none ∧ 50 ∈ s'.lh := by
  have hview : ((Machine.run (fun s e => if s.fits e then next s e else none) (fresh 2) beginRead).map
      fun s => (s.pc 0, s.panic, s.cache.hold 0 0, (s.cache.buf 0).blockno, s.outstanding)) =
      some (.op 0 [], none, .ready, 50, 1) := by decide +kernel
  obtain ⟨s, hrun, hs⟩ := Option.map_eq_some_iff.mp hview
  simp only [Prod.mk.injEq] at hs
  obtain ⟨hpc, hpanic, hhold, hblock, hout⟩ := hs
  have hreach : Reachable (fun s e => s.fits e) s :=
    (Machine.Reach.start (fresh_initial 2)).of_guarded_run (fun _ _ htest => htest) hrun
  have hlog := (log_space hreach).2.2.1 0 0 0 [] hpc (by decide) hpanic (by rw [hhold]; rfl)
  rw [hblock] at hlog
  exact ⟨s, hreach, hout, hlog⟩

end LogState

end EAFITos
