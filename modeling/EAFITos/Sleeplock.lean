/-
The sleep locks of `kernel/sleeplock.c`, with `sleep`, `wakeup` and `kkill` of
`kernel/proc.c`: one lock and the processes that use it.  A step of a process runs
from one acquisition or release of a spinlock to the next.
-/
import EAFITos.Transition
import EAFITos.Proc

namespace EAFITos

open Function Option List

variable {q : Nat} {pc : SleepPc}

/-- Where a process stands in a call on the lock. -/
inductive SleepPc where
  | outside
  /-- `holdingsleep` or `kkill` has returned `r`. -/
  | answered (r : Int)
  /-- In `acquiresleep`: about to acquire `lk->lk`, at the head of the loop, and about to
  release `lk->lk`. -/
  | acquire
  | acquireTop
  | acquireUnlock
  /-- In `sleep`: about to acquire `p->lock`, to release `lk->lk`, to set the state, and given
  up to the scheduler. -/
  | sleepLock
  | sleepUnlock
  | sleepSet
  | asleep
  /-- In `releasesleep`: about to acquire `lk->lk`, in `wakeup` with the processes from `index`
  on still to be looked at, and about to release `lk->lk`. -/
  | release
  | wakeup (index : Nat)
  | releaseUnlock
  /-- In `holdingsleep`: about to acquire `lk->lk`, and about to release it and return `r`. -/
  | holding
  | holdingUnlock (r : Int)
  /-- In the loop of `kkill`. -/
  | kill (pid : Int) (index : Nat)
  deriving DecidableEq, Repr

/-- A process as the lock sees it.  `chan` says that `p->chan` is the lock, `locked` that the
process holds its own `p->lock`, and `holds` that it has returned from `acquiresleep` and has
not called `releasesleep` since. -/
structure SleepProc where
  pid : Int
  state : ProcState
  chan : Bool
  killed : Bool
  locked : Bool
  holds : Bool
  pc : SleepPc

/-- A `struct sleeplock` and the processes.  `lock` is the holder of `lk->lk`. -/
structure Sleeplock where
  lock : Option Nat
  locked : Bool
  pid : Int
  proc : Nat → SleepProc

inductive SleepCall where
  | acquiresleep
  | releasesleep
  | holdingsleep
  | kkill (pid : Int)
  deriving DecidableEq, Repr

inductive SleepEvent where
  | call (p : Nat) (c : SleepCall)
  | step (p : Nat)
  deriving DecidableEq, Repr

def SleepEvent.actor : SleepEvent → Nat
  | .call p _ => p
  | .step p => p

namespace Sleeplock

def setProc (s : Sleeplock) (p : Nat) (t : SleepProc) : Sleeplock :=
  { s with proc := update s.proc p t }

/-- The process `p` goes on at `pc`. -/
def goto (s : Sleeplock) (p : Nat) (pc : SleepPc) : Sleeplock :=
  s.setProc p { s.proc p with pc := pc }

/-- The value that `holdingsleep` computes for `p`. -/
def holdingsleep (s : Sleeplock) (p : Nat) : Bool :=
  s.locked && s.pid == (s.proc p).pid

/-- The body of the loop of `wakeup` for one process. -/
def wake (s : Sleeplock) (q : Nat) : Sleeplock :=
  if (s.proc q).state = .SLEEPING ∧ (s.proc q).chan = true then
    s.setProc q { s.proc q with state := .RUNNABLE }
  else s

/-- What `kkill` does to the process it has found. -/
def kill (s : Sleeplock) (q : Nat) : Sleeplock :=
  s.setProc q { s.proc q with
    killed := true
    state := if (s.proc q).state = .SLEEPING then .RUNNABLE else (s.proc q).state }

/-- The next step of process `p`, if it is not waiting for a lock or asleep. -/
def step (s : Sleeplock) (p : Nat) : Option Sleeplock :=
  match (s.proc p).pc with
  | .outside | .answered _ => none
  | .acquire =>
    if s.lock = none then some ({ s with lock := some p }.goto p .acquireTop) else none
  | .acquireTop =>
    if s.locked then some (s.goto p .sleepLock)
    else some ({ s with locked := true, pid := (s.proc p).pid }.goto p .acquireUnlock)
  | .acquireUnlock =>
    some ({ s with lock := none }.setProc p { s.proc p with holds := true, pc := .outside })
  | .sleepLock =>
    if (s.proc p).locked then none
    else some (s.setProc p { s.proc p with locked := true, pc := .sleepUnlock })
  | .sleepUnlock => some ({ s with lock := none }.goto p .sleepSet)
  | .sleepSet =>
    some (s.setProc p { s.proc p with
      chan := true
      state := .SLEEPING
      locked := false
      pc := .asleep })
  | .asleep =>
    if (s.proc p).state = .SLEEPING then none
    else some (s.setProc p { s.proc p with chan := false, pc := .acquire })
  | .release =>
    if s.lock = none then
      some ({ s with lock := some p, locked := false, pid := 0 }.goto p (.wakeup 0))
    else none
  | .wakeup index =>
    if index < NPROC then
      if index = p then some (s.goto p (.wakeup (index + 1)))
      else if (s.proc index).locked then none
      else some ((s.wake index).goto p (.wakeup (index + 1)))
    else some (s.goto p .releaseUnlock)
  | .releaseUnlock => some ({ s with lock := none }.goto p .outside)
  | .holding =>
    if s.lock = none then
      some ({ s with lock := some p }.goto p (.holdingUnlock (s.holdingsleep p).toInt))
    else none
  | .holdingUnlock r => some ({ s with lock := none }.goto p (.answered r))
  | .kill pid index =>
    if index < NPROC then
      if (s.proc index).locked then none
      else if (s.proc index).pid = pid then some ((s.kill index).goto p (.answered 0))
      else some (s.goto p (.kill pid (index + 1)))
    else some (s.goto p (.answered (-1)))

/-- The beginning of a call.  Only the holder calls `releasesleep`. -/
def call (s : Sleeplock) (p : Nat) : SleepCall → Option Sleeplock
  | .acquiresleep => some (s.goto p .acquire)
  | .releasesleep =>
    if (s.proc p).holds then
      some (s.setProc p { s.proc p with holds := false, pc := .release })
    else none
  | .holdingsleep => some (s.goto p .holding)
  | .kkill pid => some (s.goto p (.kill pid 0))

/-- A process that is not in a call begins one. -/
def begin (s : Sleeplock) (p : Nat) (c : SleepCall) : Option Sleeplock :=
  match (s.proc p).pc with
  | .outside | .answered _ => s.call p c
  | _ => none

/-- The entries of the table that are not UNUSED take steps. -/
def next (s : Sleeplock) (e : SleepEvent) : Option Sleeplock :=
  if e.actor < NPROC ∧ (s.proc e.actor).state ≠ .UNUSED then
    match e with
    | .call p c => s.begin p c
    | .step p => s.step p
  else none

/-- The lock as `initsleeplock` leaves it, and processes that are not in a call on it.
Two entries of the table with one pid are not both in use. -/
structure Initial (s : Sleeplock) : Prop where
  lock : s.lock = none
  locked : s.locked = false
  pid : s.pid = 0
  proc : ∀ p, (s.proc p).state ≠ .SLEEPING ∧ (s.proc p).chan = false ∧
    (s.proc p).locked = false ∧ (s.proc p).holds = false ∧ (s.proc p).pc = .outside
  pids : ∀ p q, (s.proc p).state ≠ .UNUSED → (s.proc q).state ≠ .UNUSED →
    (s.proc p).pid = (s.proc q).pid → p = q

/-- The states in every interleaving of the calls. -/
def Reachable : Sleeplock → Prop :=
  Machine.Reach next (fun _ _ => True) Initial

end Sleeplock

/-! ## Who holds which lock -/

namespace SleepPc

/-- The process holds `lk->lk`. -/
def holdsLock : SleepPc → Bool
  | .acquireTop | .acquireUnlock | .sleepLock | .sleepUnlock | .wakeup _ | .releaseUnlock
  | .holdingUnlock _ => true
  | _ => false

/-- The process holds its own `p->lock`. -/
def holdsOwn : SleepPc → Bool
  | .sleepUnlock | .sleepSet => true
  | _ => false

/-- The process is between setting `lk->locked` and the return from `acquiresleep`, or between
the call of `releasesleep` and clearing `lk->locked`. -/
def owns : SleepPc → Bool
  | .acquireUnlock | .release => true
  | _ => false

/-- The process has found `lk->locked` set and still holds `lk->lk`. -/
def tested : SleepPc → Bool
  | .sleepLock | .sleepUnlock => true
  | _ => false

/-- The process wakes `q` before it gives up `lk->lk`, should `q` sleep on the lock. -/
def willWake (q : Nat) : SleepPc → Bool
  | .wakeup index => index ≤ q
  | _ => false

end SleepPc

namespace SleepProc

/-- The sleep lock is this process's. -/
def owns (t : SleepProc) : Bool := t.holds || t.pc.owns

/-- The process sleeps on the lock, or has given up `lk->lk` in order to. -/
def Waits (t : SleepProc) : Prop :=
  t.state = .SLEEPING ∧ t.chan = true ∨ t.pc = .sleepSet

/-- A process holds the spinlocks that its place in the code says, it is SLEEPING only in
`sleep`, and `lk->locked` and `lk->pid` say so when the sleep lock is its own. -/
structure Proper (s : Sleeplock) (p : Nat) (t : SleepProc) : Prop where
  holder : t.pc.holdsLock = true ↔ s.lock = some p
  own : t.locked = t.pc.holdsOwn
  sleeping : t.state = .SLEEPING → t.pc = .asleep
  owner : t.owns = true → t.state ≠ .UNUSED ∧ s.locked = true ∧ s.pid = t.pid
  tested : t.pc.tested = true → s.locked = true
  released : t.pc = .release → t.holds = false
  answer : ∀ r, t.pc = .holdingUnlock r → r = t.holds.toInt

end SleepProc

theorem SleepPc.holdsLock_of_willWake (h : pc.willWake q = true) :
    pc.holdsLock = true := by
  cases pc <;> first | rfl | cases h

theorem SleepPc.holdsLock_of_tested (h : pc.tested = true) :
    pc.holdsLock = true := by
  cases pc <;> first | rfl | cases h

theorem SleepProc.Proper.not_waits {s : Sleeplock} {p : Nat} {t : SleepProc}
    (h : t.Proper s p) (hholds : t.pc.holdsLock = true) : ¬ t.Waits := by
  rintro (⟨hstate, -⟩ | hpc)
  · rw [h.sleeping hstate] at hholds
    cases hholds
  · rw [hpc] at hholds
    cases hholds

namespace Sleeplock

variable {s s' : Sleeplock} {p : Nat} {t : SleepProc}

theorem setProc_proc_self (s : Sleeplock) (p : Nat) (t : SleepProc) : (s.setProc p t).proc p = t :=
  update_self _ _ _

/-- The owner of the sleep lock is the one it names, and whoever waits while it is free
will be woken by the holder of `lk->lk`. -/
structure Inv (s : Sleeplock) : Prop where
  proper : ∀ p, (s.proc p).Proper s p
  pids : ∀ p q, (s.proc p).state ≠ .UNUSED → (s.proc q).state ≠ .UNUSED →
    (s.proc p).pid = (s.proc q).pid → p = q
  owned : s.locked = true → ∃ p, (s.proc p).owns = true
  missed : ∀ q, q < NPROC → (s.proc q).Waits →
    s.locked = true ∨ ∃ p, s.lock = some p ∧ (s.proc p).pc.willWake q = true

theorem Inv.owner_unique (h : Inv s) (hp : (s.proc p).owns = true) (hq : (s.proc q).owns = true) :
    p = q := by
  obtain ⟨hpused, -, hppid⟩ := (h.proper p).owner hp
  obtain ⟨hqused, -, hqpid⟩ := (h.proper q).owner hq
  exact h.pids p q hpused hqused (hppid.symm.trans hqpid)

/-- The pids of the entries in use stay distinct when one process changes. -/
theorem Inv.pids_update (h : Inv s) (hpid : t.pid = (s.proc p).pid)
    (hused : t.state ≠ .UNUSED → (s.proc p).state ≠ .UNUSED) (q r : Nat)
    (hq : (update s.proc p t q).state ≠ .UNUSED) (hr : (update s.proc p t r).state ≠ .UNUSED)
    (heq : (update s.proc p t q).pid = (update s.proc p t r).pid) : q = r := by
  have hpids : ∀ q, (update s.proc p t q).pid = (s.proc q).pid :=
    (forall_update_iff s.proc fun q t => t.pid = (s.proc q).pid).mpr ⟨hpid, fun _ _ => rfl⟩
  have hstates : ∀ q, (update s.proc p t q).state ≠ .UNUSED → (s.proc q).state ≠ .UNUSED :=
    (forall_update_iff s.proc fun q t => t.state ≠ .UNUSED →
      (s.proc q).state ≠ .UNUSED).mpr ⟨hused, fun _ _ h => h⟩
  rw [hpids, hpids] at heq
  exact h.pids q r (hstates q hq) (hstates r hr) heq

/-- A step that leaves `lk->locked` and `lk->pid` alone: it may take or give up `lk->lk`, may
begin to wait while the lock is held, and has to go on in waking the others. -/
theorem Inv.quiet (h : Inv s) (hproc : s'.proc = update s.proc p t)
    (hlocked : s'.locked = s.locked) (hspid : s'.pid = s.pid)
    (hlock : ∀ q, q ≠ p → (s'.lock = some q ↔ s.lock = some q)) (hnew : t.Proper s' p)
    (hpid : t.pid = (s.proc p).pid) (hused : t.state ≠ .UNUSED → (s.proc p).state ≠ .UNUSED)
    (howns : t.owns = (s.proc p).owns) (hwaits : t.Waits → (s.proc p).Waits ∨ s.locked = true)
    (hwake : ∀ q, q < NPROC → q ≠ p → (s.proc q).Waits → (s.proc p).pc.willWake q = true →
      t.pc.willWake q = true) : Inv s' := by
  constructor
  · rw [hproc]
    refine (forall_update_iff s.proc fun q t => t.Proper s' q).mpr ⟨hnew, fun q hq => ?_⟩
    have hold := h.proper q
    refine ⟨hold.holder.trans (hlock q hq).symm, hold.own, hold.sleeping, ?_, ?_, hold.released,
      hold.answer⟩
    · rw [hlocked, hspid]
      exact hold.owner
    · rw [hlocked]
      exact hold.tested
  · rw [hproc]
    exact h.pids_update hpid hused
  · intro hl
    obtain ⟨q, hq⟩ := h.owned (hlocked ▸ hl)
    refine ⟨q, ?_⟩
    rw [hproc]
    by_cases hqp : q = p
    · subst hqp
      rw [update_self, howns]
      exact hq
    · rw [update_of_ne hqp]
      exact hq
  · intro q hq hwait
    rw [hlocked]
    have hbefore : (s.proc q).Waits ∨ s.locked = true := by
      by_cases hqp : q = p
      · subst hqp
        rw [hproc, update_self] at hwait
        exact hwaits hwait
      · rw [hproc, update_of_ne hqp] at hwait
        exact .inl hwait
    obtain hbefore | hl := hbefore
    · obtain hl | ⟨r, hr, hw⟩ := h.missed q hq hbefore
      · exact .inl hl
      · refine .inr ⟨r, ?_⟩
        rw [hproc]
        by_cases hrp : r = p
        · subst hrp
          have hqr : q ≠ r := by
            rintro rfl
            exact (h.proper q).not_waits (SleepPc.holdsLock_of_willWake hw) hbefore
          have hnext := hwake q hq hqr hbefore hw
          rw [update_self]
          exact ⟨hnew.holder.mp (SleepPc.holdsLock_of_willWake hnext), hnext⟩
        · rw [update_of_ne hrp]
          exact ⟨(hlock r hrp).mpr hr, hw⟩
    · exact .inl hl

/-- `lk->locked = 1; lk->pid = myproc()->pid` with the lock free. -/
theorem Inv.take (h : Inv s) (hpc : (s.proc p).pc = .acquireTop) (hfree : s.locked = false)
    (hused : (s.proc p).state ≠ .UNUSED) :
    Inv ({ s with locked := true, pid := (s.proc p).pid }.goto p .acquireUnlock) := by
  have hp := h.proper p
  have hlock : s.lock = some p := hp.holder.mp (by rw [hpc]; rfl)
  have hnone : ∀ q, (s.proc q).owns = false := by
    intro q
    by_contra howns
    have hl := ((h.proper q).owner (Bool.eq_true_of_not_eq_false howns)).2.1
    cases hfree.symm.trans hl
  constructor
  · refine (forall_update_iff s.proc fun q t => t.Proper _ q).mpr
      ⟨⟨⟨fun _ => hlock, fun _ => rfl⟩, ?_, ?_, fun _ => ⟨hused, rfl, rfl⟩, fun _ => rfl, nofun,
        nofun⟩, fun q hq => ?_⟩
    · exact hp.own.trans (by rw [hpc]; rfl)
    · intro hs
      cases hpc.symm.trans (hp.sleeping hs)
    · have hold := h.proper q
      refine ⟨hold.holder, hold.own, hold.sleeping, ?_, fun _ => rfl, hold.released, hold.answer⟩
      intro howns
      cases (hnone q).symm.trans howns
  · exact h.pids_update rfl id
  · intro _
    refine ⟨p, ?_⟩
    rw [goto, setProc_proc_self]
    exact Bool.or_true _
  · intro q hq _
    exact .inl rfl

/-- `lk->locked = 0; lk->pid = 0`, with everybody still to be woken. -/
theorem Inv.give (h : Inv s) (hpc : (s.proc p).pc = .release) (hfree : s.lock = none) :
    Inv ({ s with lock := some p, locked := false, pid := 0 }.goto p (.wakeup 0)) := by
  have hp := h.proper p
  have howner : (s.proc p).owns = true := by rw [SleepProc.owns, hpc]; exact Bool.or_true _
  constructor
  · refine (forall_update_iff s.proc fun q t => t.Proper _ q).mpr
      ⟨⟨⟨fun _ => rfl, fun _ => rfl⟩, ?_, ?_, ?_, nofun, nofun, nofun⟩, fun q hq => ?_⟩
    · exact hp.own.trans (by rw [hpc]; rfl)
    · intro hs
      cases hpc.symm.trans (hp.sleeping hs)
    · intro howns
      rw [SleepProc.owns, hp.released hpc] at howns
      cases howns
    · have hold := h.proper q
      have hnot : (s.proc q).pc.holdsLock ≠ true := by
        intro hl
        cases hfree.symm.trans (hold.holder.mp hl)
      refine ⟨⟨fun hl => absurd hl hnot, ?_⟩, hold.own, hold.sleeping, ?_, ?_, hold.released,
        hold.answer⟩
      · intro heq
        exact absurd (some.inj heq).symm hq
      · intro howns
        exact absurd (h.owner_unique howns howner) hq
      · intro htested
        exact absurd (SleepPc.holdsLock_of_tested htested) hnot
  · exact h.pids_update rfl id
  · nofun
  · intro q hq _
    refine .inr ⟨p, rfl, ?_⟩
    rw [goto, setProc_proc_self]
    exact decide_eq_true (Nat.zero_le q)

/-- Taking or giving up `lk->lk` concerns no other process. -/
theorem lock_other {l l' : Option Nat} (hl : l = none ∨ l = some p)
    (hl' : l' = none ∨ l' = some p) (q : Nat) (hq : q ≠ p) : l' = some q ↔ l = some q := by
  have hne : ∀ l : Option Nat, l = none ∨ l = some p → l ≠ some q := by
    rintro l (rfl | rfl) heq
    · cases heq
    · exact hq (some.inj heq).symm
  exact ⟨fun h => absurd h (hne l' hl'), fun h => absurd h (hne l hl)⟩

/-- A process that is not in `sleep` goes on at `pc'`, and `lk->lk` is then held by `l`. -/
theorem Inv.move {pc' : SleepPc} {l : Option Nat} (h : Inv s) (hpc : (s.proc p).pc = pc)
    (hasleep : pc ≠ .asleep) (hlock : ∀ q, q ≠ p → (l = some q ↔ s.lock = some q))
    (hholder : pc'.holdsLock = true ↔ l = some p) (hown : pc.holdsOwn = pc'.holdsOwn)
    (howns : pc'.owns = pc.owns) (htested : pc'.tested = true ∨ pc' = .sleepSet → s.locked = true)
    (hanswer : ∀ r, pc' = .holdingUnlock r → r = (s.proc p).holds.toInt) (hrelease : pc' ≠ .release)
    (hwake : ∀ q, q < NPROC → q ≠ p → (s.proc q).Waits → pc.willWake q = true →
      pc'.willWake q = true) : Inv ({ s with lock := l }.goto p pc') := by
  have hp := h.proper p
  have hstate : (s.proc p).state ≠ .SLEEPING := fun hs => hasleep (hpc.symm.trans (hp.sleeping hs))
  have hsame : { s.proc p with pc := pc' : SleepProc }.owns = (s.proc p).owns := by
    rw [SleepProc.owns, SleepProc.owns, hpc, howns]
  refine h.quiet (t := { s.proc p with pc := pc' }) rfl rfl rfl hlock ?_ rfl id hsame ?_ ?_
  · refine ⟨hholder, ?_, fun hs => absurd hs hstate, ?_, fun ht => htested (.inl ht),
      fun hr => absurd hr hrelease, hanswer⟩
    · exact hp.own.trans ((congrArg _ hpc).trans hown)
    · rw [hsame]
      exact hp.owner
  · rintro (⟨hs, -⟩ | hset)
    · exact absurd hs hstate
    · exact .inr (htested (.inr hset))
  · rw [hpc]
    exact hwake

/-- `wakeup` and `kkill` change the state of a sleeper. -/
theorem Inv.rouse (h : Inv s) (killed : Bool) :
    Inv (s.setProc q { s.proc q with
      killed := killed
      state := if (s.proc q).state = .SLEEPING then .RUNNABLE else (s.proc q).state }) := by
  have hq := h.proper q
  have hused : (if (s.proc q).state = .SLEEPING then .RUNNABLE else (s.proc q).state) ≠
      ProcState.UNUSED ↔ (s.proc q).state ≠ .UNUSED := by
    split
    case isTrue hs => rw [hs]; decide
    case isFalse => exact Iff.rfl
  have hawake : (if (s.proc q).state = .SLEEPING then .RUNNABLE else (s.proc q).state) ≠
      ProcState.SLEEPING := by
    split
    · nofun
    · assumption
  refine h.quiet rfl rfl rfl (fun _ _ => Iff.rfl) ?_ rfl hused.mp rfl ?_ (fun _ _ _ _ hw => hw)
  · refine ⟨hq.holder, hq.own, fun hs => absurd hs hawake, ?_, hq.tested, hq.released, hq.answer⟩
    intro howns
    have hold := hq.owner howns
    exact ⟨hused.mpr hold.1, hold.2⟩
  · rintro (⟨hs, -⟩ | hset)
    · exact absurd hs hawake
    · exact .inl (.inr hset)

theorem Inv.wake (h : Inv s) : Inv (s.wake q) := by
  rw [Sleeplock.wake]
  split
  case isTrue hsleep =>
    have hrouse := h.rouse (q := q) (s.proc q).killed
    rw [if_pos hsleep.1] at hrouse
    exact hrouse
  case isFalse => exact h

/-- A process whose `p->lock` is free does not wait after its round of `wakeup`. -/
theorem Inv.not_waits_wake (h : Inv s) (hfree : (s.proc q).locked = false) :
    ¬ ((s.wake q).proc q).Waits := by
  have hset : (s.proc q).pc ≠ .sleepSet := by
    intro hpc
    have hown := (h.proper q).own
    rw [hfree, hpc] at hown
    cases hown
  rw [Sleeplock.wake]
  split
  case isTrue =>
    rw [setProc_proc_self]
    rintro (⟨hs, -⟩ | hpc)
    · cases hs
    · exact hset hpc
  case isFalse hawake =>
    rintro (hwait | hpc)
    · exact hawake hwait
    · exact hset hpc

theorem wake_proc_of_ne (hne : p ≠ q) : (s.wake q).proc p = s.proc p := by
  rw [wake]
  split
  · exact update_of_ne hne _ _
  · rfl

section

variable (h : Inv s)
include h

/-- The value of `holdingsleep` is true for the owner alone. -/
theorem Inv.holdingsleep_eq (hused : (s.proc p).state ≠ .UNUSED) :
    s.holdingsleep p = (s.proc p).owns := by
  rw [Bool.eq_iff_iff, holdingsleep, Bool.and_eq_true, beq_iff_eq]
  constructor
  · rintro ⟨hlocked, hpid⟩
    obtain ⟨q, hq⟩ := h.owned hlocked
    obtain ⟨hqused, -, hqpid⟩ := (h.proper q).owner hq
    obtain rfl := h.pids p q hused hqused (hpid.symm.trans hqpid)
    exact hq
  · intro howns
    exact ((h.proper p).owner howns).2

/-- The return from `acquiresleep`. -/
theorem Inv.acquireUnlock (hpc : (s.proc p).pc = .acquireUnlock) :
    Inv ({ s with lock := none }.setProc p { s.proc p with holds := true, pc := .outside }) := by
  have hp := h.proper p
  have hlock : s.lock = some p := hp.holder.mp (by rw [hpc]; rfl)
  have howner : (s.proc p).owns = true := by rw [SleepProc.owns, hpc]; exact Bool.or_true _
  have hawake : (s.proc p).state ≠ .SLEEPING := fun hs => nomatch hpc.symm.trans (hp.sleeping hs)
  refine h.quiet rfl rfl rfl (lock_other (.inr hlock) (.inl rfl)) ?_ rfl id howner.symm ?_ ?_
  · exact ⟨⟨nofun, nofun⟩, hp.own.trans (by rw [hpc]; rfl), fun hs => absurd hs hawake,
      fun _ => hp.owner howner, nofun, nofun, nofun⟩
  · rintro (⟨hs, -⟩ | hset)
    · exact absurd hs hawake
    · cases hset
  · rw [hpc]
    nofun

/-- In `sleep`, `p->lock` is taken before `lk->lk` is given up. -/
theorem Inv.sleepLock (hpc : (s.proc p).pc = .sleepLock) :
    Inv (s.setProc p { s.proc p with locked := true, pc := .sleepUnlock }) := by
  have hp := h.proper p
  have hlock : s.lock = some p := hp.holder.mp (by rw [hpc]; rfl)
  have hheld : s.locked = true := hp.tested (by rw [hpc]; rfl)
  have hawake : (s.proc p).state ≠ .SLEEPING := fun hs => nomatch hpc.symm.trans (hp.sleeping hs)
  have howns : { s.proc p with locked := true, pc := .sleepUnlock : SleepProc }.owns =
      (s.proc p).owns := by
    rw [SleepProc.owns, SleepProc.owns, hpc]
    rfl
  refine h.quiet rfl rfl rfl (fun _ _ => Iff.rfl) ?_ rfl id howns (fun _ => .inr hheld) ?_
  · exact ⟨⟨fun _ => hlock, fun _ => rfl⟩, rfl, fun hs => absurd hs hawake,
      fun ho => hp.owner (howns ▸ ho), fun _ => hheld, nofun, nofun⟩
  · rw [hpc]
    nofun

/-- The process gives itself up to the scheduler. -/
theorem Inv.sleepSet (hpc : (s.proc p).pc = .sleepSet) (hused : (s.proc p).state ≠ .UNUSED) :
    Inv (s.setProc p { s.proc p with
      chan := true
      state := .SLEEPING
      locked := false
      pc := .asleep }) := by
  have hp := h.proper p
  have hholder := hp.holder
  rw [hpc] at hholder
  have howns : { s.proc p with
      chan := true
      state := .SLEEPING
      locked := false
      pc := .asleep : SleepProc }.owns = (s.proc p).owns := by
    rw [SleepProc.owns, SleepProc.owns, hpc]
    rfl
  refine h.quiet rfl rfl rfl (fun _ _ => Iff.rfl) ?_ rfl (fun _ => hused) howns
    (fun _ => .inl (.inr hpc)) ?_
  · exact ⟨hholder, rfl, fun _ => rfl, fun ho => ⟨nofun, (hp.owner (howns ▸ ho)).2⟩, nofun, nofun,
      nofun⟩
  · rw [hpc]
    nofun

/-- The process runs again after it was woken. -/
theorem Inv.awake (hpc : (s.proc p).pc = .asleep) (hawake : (s.proc p).state ≠ .SLEEPING) :
    Inv (s.setProc p { s.proc p with chan := false, pc := .acquire }) := by
  have hp := h.proper p
  have hholder := hp.holder
  rw [hpc] at hholder
  have howns : { s.proc p with chan := false, pc := .acquire : SleepProc }.owns =
      (s.proc p).owns := by
    rw [SleepProc.owns, SleepProc.owns, hpc]
    rfl
  refine h.quiet rfl rfl rfl (fun _ _ => Iff.rfl) ?_ rfl id howns ?_ ?_
  · exact ⟨hholder, hp.own.trans (by rw [hpc]; rfl), fun hs => absurd hs hawake,
      fun ho => hp.owner (howns ▸ ho), nofun, nofun, nofun⟩
  · rintro (⟨hs, -⟩ | hset)
    · exact absurd hs hawake
    · cases hset
  · rw [hpc]
    nofun

/-- One round of the loop of `wakeup`. -/
theorem Inv.wakeup {index : Nat} (hpc : (s.proc p).pc = .wakeup index) (hne : index ≠ p)
    (hfree : (s.proc index).locked = false) :
    Inv ((s.wake index).goto p (.wakeup (index + 1))) := by
  have hwake := h.wake (q := index)
  have hself : (s.wake index).proc p = s.proc p := wake_proc_of_ne hne.symm
  have hpc' : ((s.wake index).proc p).pc = .wakeup index := by rw [hself, hpc]
  have hholder := (hwake.proper p).holder
  rw [hpc'] at hholder
  refine hwake.move hpc' nofun (fun _ _ => Iff.rfl) hholder rfl rfl nofun nofun nofun ?_
  intro q _ _ hwait hle
  have hq : q ≠ index := fun heq => h.not_waits_wake hfree (heq ▸ hwait)
  simp only [SleepPc.willWake, decide_eq_true_eq] at hle ⊢
  omega

/-- `kkill` of the process it has found, which may be the caller itself. -/
theorem Inv.kkill {pid : Int} {index : Nat} (hpc : (s.proc p).pc = .kill pid index) :
    Inv ((s.kill index).goto p (.answered 0)) := by
  have hkill : Inv (s.kill index) := h.rouse true
  have hpc' : ((s.kill index).proc p).pc = .kill pid index := by
    have hpcs : ∀ p, ((s.kill index).proc p).pc = (s.proc p).pc :=
      (forall_update_iff s.proc fun q t => t.pc = (s.proc q).pc).mpr ⟨rfl, fun _ _ => rfl⟩
    rw [hpcs, hpc]
  have hholder := (hkill.proper p).holder
  rw [hpc'] at hholder
  exact hkill.move hpc' nofun (fun _ _ => Iff.rfl) hholder rfl rfl nofun nofun nofun nofun

theorem Inv.step (hused : (s.proc p).state ≠ .UNUSED) (hstep : s.step p = some s') : Inv s' := by
  have hp := h.proper p
  have hkeep : ∀ q, q ≠ p → (s.lock = some q ↔ s.lock = some q) := fun _ _ => Iff.rfl
  cases hpc : (s.proc p).pc
  all_goals simp only [Sleeplock.step, hpc] at hstep
  all_goals have hholder := hp.holder
  all_goals rw [hpc] at hholder
  case outside => cases hstep
  case answered r => cases hstep
  case acquire =>
    obtain ⟨hfree, rfl⟩ := Machine.of_guard hstep
    exact h.move hpc nofun (lock_other (.inl hfree) (.inr rfl)) ⟨fun _ => rfl, fun _ => rfl⟩ rfl
      rfl nofun nofun nofun nofun
  case acquireTop =>
    split at hstep
    case isTrue hheld =>
      obtain rfl := some.inj hstep
      exact h.move hpc nofun hkeep hholder rfl rfl (fun _ => hheld) nofun nofun nofun
    case isFalse hfree =>
      exact some.inj hstep ▸ h.take hpc (Bool.eq_false_of_not_eq_true hfree) hused
  case acquireUnlock =>
    exact some.inj hstep ▸ h.acquireUnlock hpc
  case sleepLock =>
    obtain ⟨-, hstep⟩ := ite_none_left_eq_some.mp hstep
    exact some.inj hstep ▸ h.sleepLock hpc
  case sleepUnlock =>
    obtain rfl := some.inj hstep
    refine h.move hpc nofun (lock_other (.inr (hholder.mp rfl)) (.inl rfl)) ⟨nofun, nofun⟩ rfl rfl
      (fun _ => hp.tested (by rw [hpc]; rfl)) nofun nofun nofun
  case sleepSet => exact some.inj hstep ▸ h.sleepSet hpc hused
  case asleep =>
    obtain ⟨hawake, hstep⟩ := ite_none_left_eq_some.mp hstep
    exact some.inj hstep ▸ h.awake hpc hawake
  case release =>
    obtain ⟨hfree, hstep⟩ := ite_none_right_eq_some.mp hstep
    exact some.inj hstep ▸ h.give hpc hfree
  case wakeup index =>
    split at hstep
    · split at hstep
      case isTrue hself =>
        obtain rfl := some.inj hstep
        refine h.move hpc nofun hkeep hholder rfl rfl nofun nofun nofun fun q _ hq _ hle => ?_
        simp only [SleepPc.willWake, decide_eq_true_eq] at hle ⊢
        omega
      case isFalse hne =>
        obtain ⟨_, hstep⟩ := ite_none_left_eq_some.mp hstep
        exact some.inj hstep ▸ h.wakeup hpc hne (Bool.eq_false_of_not_eq_true ‹_›)
    · obtain rfl := some.inj hstep
      refine h.move hpc nofun hkeep hholder rfl rfl nofun nofun nofun fun q hq _ _ hle => ?_
      simp only [SleepPc.willWake, decide_eq_true_eq] at hle
      omega
  case releaseUnlock =>
    obtain rfl := some.inj hstep
    exact h.move hpc nofun (lock_other (.inr (hholder.mp rfl)) (.inl rfl)) ⟨nofun, nofun⟩ rfl rfl
      nofun nofun nofun nofun
  case holding =>
    obtain ⟨hfree, rfl⟩ := Machine.of_guard hstep
    refine h.move hpc nofun (lock_other (.inl hfree) (.inr rfl)) ⟨fun _ => rfl, fun _ => rfl⟩ rfl
      rfl nofun ?_ nofun nofun
    intro r hr
    have howns : (s.proc p).owns = (s.proc p).holds := by
      rw [SleepProc.owns, hpc]
      exact Bool.or_false _
    rw [← SleepPc.holdingUnlock.inj hr, h.holdingsleep_eq hused, howns]
  case holdingUnlock r =>
    obtain rfl := some.inj hstep
    exact h.move hpc nofun (lock_other (.inr (hholder.mp rfl)) (.inl rfl)) ⟨nofun, nofun⟩ rfl rfl
      nofun nofun nofun nofun
  case kill pid index =>
    split at hstep
    · obtain ⟨-, hstep⟩ := ite_none_left_eq_some.mp hstep
      split at hstep
      · exact some.inj hstep ▸ h.kkill hpc
      · obtain rfl := some.inj hstep
        exact h.move hpc nofun hkeep hholder rfl rfl nofun nofun nofun nofun
    · obtain rfl := some.inj hstep
      exact h.move hpc nofun hkeep hholder rfl rfl nofun nofun nofun nofun

end

theorem begin_eq {c : SleepCall} (h : s.begin p c = some s') :
    s.call p c = some s' ∧ ((s.proc p).pc = .outside ∨ ∃ r, (s.proc p).pc = .answered r) := by
  unfold begin at h
  split at h
  case h_1 hpc => exact ⟨h, .inl hpc⟩
  case h_2 r hpc => exact ⟨h, .inr ⟨r, hpc⟩⟩
  case h_3 => cases h

theorem Inv.begin {c : SleepCall} (h : Inv s) (hcall : s.call p c = some s')
    (hpc : (s.proc p).pc = pc) (hout : pc = .outside ∨ ∃ r, pc = .answered r) : Inv s' := by
  have hp := h.proper p
  have hasleep : pc ≠ .asleep := by rintro rfl; simp at hout
  have hholds : pc.holdsLock = false := by obtain rfl | ⟨r, rfl⟩ := hout <;> rfl
  have hown : pc.holdsOwn = false := by obtain rfl | ⟨r, rfl⟩ := hout <;> rfl
  have hnot : pc.owns = false := by obtain rfl | ⟨r, rfl⟩ := hout <;> rfl
  have hwake : ∀ q, pc.willWake q = false := by
    intro q
    obtain rfl | ⟨r, rfl⟩ := hout <;> rfl
  have hlock : false = true ↔ s.lock = some p := by rw [← hp.holder, hpc, hholds]
  have hkeep : ∀ q, q ≠ p → (s.lock = some q ↔ s.lock = some q) := fun _ _ => Iff.rfl
  have hnone : ∀ pc' : SleepPc, ∀ q, q < NPROC → q ≠ p → (s.proc q).Waits →
      pc.willWake q = true → pc'.willWake q = true :=
    fun _ q _ _ _ hw => nomatch (hwake q).symm.trans hw
  cases c with
  | acquiresleep =>
    obtain rfl := some.inj hcall
    exact h.move hpc hasleep hkeep hlock hown hnot.symm nofun nofun nofun (hnone _)
  | holdingsleep =>
    obtain rfl := some.inj hcall
    exact h.move hpc hasleep hkeep hlock hown hnot.symm nofun nofun nofun (hnone _)
  | kkill pid =>
    obtain rfl := some.inj hcall
    exact h.move hpc hasleep hkeep hlock hown hnot.symm nofun nofun nofun (hnone _)
  | releasesleep =>
    obtain ⟨hholding, rfl⟩ := Machine.of_guard hcall
    have howner : (s.proc p).owns = true := by rw [SleepProc.owns, hholding, Bool.true_or]
    have hawake : (s.proc p).state ≠ .SLEEPING :=
      fun hs => hasleep (hpc.symm.trans (hp.sleeping hs))
    refine h.quiet rfl rfl rfl hkeep ?_ rfl id howner.symm ?_ ?_
    · exact ⟨hlock, hp.own.trans (by rw [hpc, hown]; rfl), fun hs => absurd hs hawake,
        fun _ => hp.owner howner, nofun, fun _ => rfl, nofun⟩
    · rintro (⟨hs, -⟩ | hset)
      · exact absurd hs hawake
      · cases hset
    · rw [hpc]
      exact hnone _

theorem Inv.next {e : SleepEvent} (h : Inv s) (hnext : s.next e = some s') : Inv s' := by
  obtain ⟨hactor, hnext⟩ := ite_none_right_eq_some.mp hnext
  cases e with
  | call p c =>
    obtain ⟨hcall, hout⟩ := begin_eq hnext
    exact h.begin hcall rfl hout
  | step p => exact h.step hactor.2 hnext

theorem Initial.inv (h : Initial s) : Inv s := by
  constructor
  · intro p
    obtain ⟨hstate, -, hlocked, hholds, hpc⟩ := h.proc p
    have howns : (s.proc p).owns = false := by rw [SleepProc.owns, hholds, hpc]; rfl
    constructor
    · rw [hpc, h.lock]
      exact ⟨nofun, nofun⟩
    · rw [hlocked, hpc]
      rfl
    · exact fun hs => absurd hs hstate
    · rw [howns]
      nofun
    all_goals
      rw [hpc]
      nofun
  · exact h.pids
  · intro hl
    cases h.locked.symm.trans hl
  · rintro q - (⟨hs, -⟩ | hset)
    · exact absurd hs (h.proc q).1
    · cases (h.proc q).2.2.2.2.symm.trans hset

theorem Reachable.inv (h : Reachable s) : Inv s :=
  Machine.Reach.invariant (fun _ => Initial.inv) (fun _ _ _ hinv _ hnext => hinv.next hnext) h

/-- In every interleaving the sleep lock has at most one owner, `holdingsleep` is true exactly
for it, and nobody sleeps on a free lock once `lk->lk` is free as well.  A process owns the lock
from setting `lk->locked` to clearing it: between its calls, when it `holds` the lock. -/
theorem sleeplock_excludes (h : Reachable s) :
    (∀ p q, (s.proc p).owns = true → (s.proc q).owns = true → p = q) ∧
      (∀ p, (s.proc p).state ≠ .UNUSED → s.holdingsleep p = (s.proc p).owns) ∧
      (∀ p r, (s.proc p).pc = .holdingUnlock r → r = (s.proc p).holds.toInt) ∧
      (s.lock = none → s.locked = false → ∀ q, q < NPROC →
        ¬ ((s.proc q).state = .SLEEPING ∧ (s.proc q).chan = true)) := by
  have hinv : Inv s := Reachable.inv h
  refine ⟨fun p q => hinv.owner_unique, fun p => hinv.holdingsleep_eq,
    fun p => (hinv.proper p).answer, ?_⟩
  rintro hlock hfree q hq hsleep
  obtain hl | ⟨p, hp, -⟩ := hinv.missed q hq (.inl hsleep)
  · cases hfree.symm.trans hl
  · cases hlock.symm.trans hp

/-- A free lock and a table of running processes. -/
def freeLock : Sleeplock where
  lock := none
  locked := false
  pid := 0
  proc := fun p => ⟨p + 1, .RUNNABLE, false, false, false, false, .outside⟩

theorem freeLock_initial : Initial freeLock where
  lock := rfl
  locked := rfl
  pid := rfl
  proc := fun _ => ⟨nofun, rfl, rfl, rfl, rfl⟩
  pids := by
    intro p q _ _ hpid
    simp only [freeLock] at hpid
    omega

/-- Process 0 acquires the lock and process 1 falls asleep on it. -/
def secondSleeps : List SleepEvent :=
  .call 0 .acquiresleep :: replicate 3 (.step 0) ++
    .call 1 .acquiresleep :: replicate 5 (.step 1)

theorem sleeplock_excludes_second :
    ∃ s, Reachable s ∧ (s.proc 1).state = .SLEEPING ∧ (s.proc 1).chan = true ∧ s.lock = none ∧
      s.locked = true ∧ s.holdingsleep 0 = true ∧ s.holdingsleep 1 = false := by
  have hrun : (Machine.run Sleeplock.next freeLock secondSleeps).map
      (fun s => (((s.proc 0).state, (s.proc 1).state), ((s.proc 0).owns, (s.proc 1).owns),
        (s.proc 1).chan, s.lock, s.locked)) =
      some ((.RUNNABLE, .SLEEPING), (true, false), true, none, true) := by
    decide +kernel
  obtain ⟨s, hs, hview⟩ := map_eq_some_iff.mp hrun
  have hreach : Reachable s :=
    (Machine.Reach.start freeLock_initial).of_run (fun _ _ _ => trivial) hs
  simp only [Prod.mk.injEq] at hview
  obtain ⟨⟨hstate0, hstate1⟩, ⟨howns0, howns1⟩, hchan1, hlock, hlocked⟩ := hview
  obtain ⟨-, hholding, -, -⟩ := sleeplock_excludes hreach
  refine ⟨s, hreach, hstate1, hchan1, hlock, hlocked, ?_, ?_⟩
  · rw [hholding 0 (by rw [hstate0]; decide), howns0]
  · rw [hholding 1 (by rw [hstate1]; decide), howns1]

end Sleeplock

end EAFITos
