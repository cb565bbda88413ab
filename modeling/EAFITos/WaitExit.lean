/-
What the process table promises: free slots are clean, and the status of every process
that exits is returned once, by a `kwait` of its parent.
-/
import EAFITos.FamilySteps
import EAFITos.Tally
import Mathlib.Algebra.Order.BigOperators.Group.Multiset

namespace EAFITos

open Option Finset List

namespace Table

variable {s s' : Table} {p q z : Nat} {e : TableEvent} {input : Option (Nat × Nat)}

variable {pc : CallPc} {new : Proc} {s1 : Table} {t : Slot}

/-! ## What a step does to a process -/

/-- What a step of a process at `pc` can do to a process, apart from its exit and its end. -/
inductive Change (pc : CallPc) (old new : Proc) : Prop
  | kept : new.state = old.state → new.killed = old.killed → new.pid = old.pid →
      new.xstate = old.xstate → Change pc old new
  | live : old.state ≠ .UNUSED ∧ old.state ≠ .ZOMBIE → new.state ≠ .UNUSED ∧ new.state ≠ .ZOMBIE →
      Change pc old new
  | alloc : old.state = .UNUSED → new.state = .USED → new.killed = old.killed → Change pc old new
  | freed : old.state ≠ .ZOMBIE → new = freedProc → Change pc old new
  | killed (index : Nat) : pc = .kill old.pid index → new = old.kill → Change pc old new

/-- Everything a step of `p` can do to the processes and the histories. -/
inductive Outcome (s s' : Table) (p : Nat) : Prop
  | quiet : s'.exited = s.exited → s'.reaped = s.reaped →
      (∀ q, Change (s.slot p).pc (s.slot q).proc (s'.slot q).proc) → Outcome s s' p
  | exit (status : Int) : p < NPROC → s.state p = .RUNNING →
      s'.exited = s.exited ++ [((s.slot p).proc.pid, status)] → s'.reaped = s.reaped →
      (s'.slot p).proc = { (s.slot p).proc with xstate := status, state := .ZOMBIE } →
      (∀ q, q ≠ p → (s'.slot q).proc = (s.slot q).proc) → Outcome s s' p
  | reap (addr z : Nat) : (s.slot p).pc = .waitFound addr z → s.Found p z →
      (s'.slot p).pc = .user (s.slot z).proc.pid → s'.exited = s.exited →
      s'.reaped = s.reaped ++ [⟨p, (s.slot z).proc.pid, (s.slot z).proc.xstate⟩] →
      (s'.slot z).proc = freedProc → (∀ q, q ≠ z → (s'.slot q).proc = (s.slot q).proc) →
      Outcome s s' p

theorem Change.of_eq {old : Proc} (h : new = old) : Change pc old new :=
  .kept (by rw [h]) (by rw [h]) (by rw [h]) (by rw [h])

theorem Outcome.one (z : Nat) (hexited : s'.exited = s.exited) (hreaped : s'.reaped = s.reaped)
    (hz : (s'.slot z).proc = new) (hother : ∀ q, q ≠ z → (s'.slot q).proc = (s.slot q).proc)
    (hchange : Change (s.slot p).pc (s.slot z).proc new) : Outcome s s' p := by
  refine .quiet hexited hreaped fun q => ?_
  by_cases hq : q = z
  · subst hq
    rw [hz]
    exact hchange
  · exact .of_eq (hother q hq)

section

variable (hslot : s1.slot = s.slot) (hexited : s1.exited = s.exited)
  (hreaped : s1.reaped = s.reaped)
include hslot hexited hreaped

theorem Outcome.goto : Outcome s (s1.goto p pc) p :=
  .quiet hexited hreaped fun q => .of_eq (by rw [proc_goto, hslot])

theorem Outcome.setSlot_goto (hchange : Change (s.slot p).pc (s.slot z).proc t.proc) :
    Outcome s ((s1.setSlot z t).goto p pc) p := by
  refine .one z hexited hreaped ?_ (fun q hq => ?_) hchange
  · rw [proc_goto, slot_setSlot_self]
  · rw [proc_goto, slot_setSlot_of_ne hq, hslot]

theorem Outcome.goto_setSlot (hchange : Change (s.slot p).pc (s.slot z).proc t.proc) :
    Outcome s ((s1.goto p pc).setSlot z t) p := by
  refine .one z hexited hreaped (by rw [slot_setSlot_self]) (fun q hq => ?_) hchange
  rw [slot_setSlot_of_ne hq, proc_goto, hslot]

end

theorem Outcome.setSlot (hchange : Change (s.slot p).pc (s.slot z).proc t.proc) :
    Outcome s (s.setSlot z t) p :=
  .one z rfl rfl (by rw [slot_setSlot_self]) (fun q hq => by rw [slot_setSlot_of_ne hq]) hchange

theorem reap_outcome {addr : Nat} (h : Family s) (hpc : (s.slot p).pc = .waitFound addr z) :
    Outcome s (s.reap p addr z input) p := by
  have hfound := h.facts p
  rw [hpc] at hfound
  have hne : p ≠ z := (h.parentAlive z p hfound.parent).2
  rw [reap]
  split
  · exact Outcome.goto_setSlot rfl rfl rfl (.of_eq (by rw [proc_goto]; rfl))
  · refine .reap addr z hpc hfound ?_ rfl rfl ?_ fun q hq => ?_
    · rw [slot_setSlot_of_ne hne, pc_goto_self]
    · rw [slot_setSlot_self]
      rfl
    · rw [slot_setSlot_of_ne hq, proc_goto]
      rfl

theorem step_outcome (h : Family s) (hp : p < NPROC) (hrun : s.state p = .RUNNING)
    (hstep : s.step p input = some s') : Outcome s s' p := by
  cases hpc : (s.slot p).pc
  all_goals simp only [step, hpc] at hstep
  case forkScan index =>
    split at hstep
    · split at hstep
      · cases hstep
      split at hstep
      case isTrue hunused =>
        cases input with
        | none =>
          obtain rfl := some.inj hstep
          exact .goto_setSlot rfl rfl rfl (.freed (by rw [hunused]; simp) rfl)
        | some pages =>
          simp only [allocFound] at hstep
          split at hstep
          · cases hstep
          · exact some.inj hstep ▸ .setSlot_goto rfl rfl rfl (.alloc hunused rfl rfl)
      case isFalse => exact some.inj hstep ▸ .goto rfl rfl rfl
    · exact some.inj hstep ▸ .goto rfl rfl rfl
  case forkCopy c =>
    obtain rfl := some.inj hstep
    obtain ⟨hused, -⟩ := h.child p c (by rw [hpc]; rfl)
    cases input with
    | none =>
      refine .goto_setSlot rfl rfl rfl (.freed ?_ rfl)
      rw [show (s.slot c).proc.state = _ from hused]
      simp
    | some pages => exact .setSlot_goto rfl rfl rfl (.kept rfl rfl rfl rfl)
  case forkParent c pid =>
    split at hstep
    · cases hstep
    · exact some.inj hstep ▸ .setSlot_goto rfl rfl rfl (.kept rfl rfl rfl rfl)
  case forkRun c pid =>
    split at hstep
    · cases hstep
    · obtain rfl := some.inj hstep
      obtain ⟨hused, -⟩ := h.child p c (by rw [hpc]; rfl)
      refine .goto_setSlot rfl rfl rfl ?_
      rw [proc_goto]
      refine .live ?_ ?_
      · rw [show (s.slot c).proc.state = _ from hused]
        simp
      · simp
  case reparent status index =>
    split at hstep
    · split at hstep
      · exact some.inj hstep ▸ .setSlot_goto rfl rfl rfl (.kept rfl rfl rfl rfl)
      · exact some.inj hstep ▸ .goto rfl rfl rfl
    · exact some.inj hstep ▸ .goto rfl rfl rfl
  case wakeup chan index after =>
    split at hstep
    · split at hstep
      · exact some.inj hstep ▸ .goto rfl rfl rfl
      split at hstep
      · cases hstep
      split at hstep
      case isTrue hasleep =>
        obtain rfl := some.inj hstep
        exact .setSlot_goto rfl rfl rfl (.live (by rw [hasleep.1]; simp) (by simp))
      case isFalse => exact some.inj hstep ▸ .goto rfl rfl rfl
    · exact some.inj hstep ▸ .goto rfl rfl rfl
  case exitLock status =>
    split at hstep
    · cases hstep
    · exact some.inj hstep ▸ .setSlot_goto rfl rfl rfl (.of_eq rfl)
  case exitZombie status =>
    obtain rfl := some.inj hstep
    refine .exit status hp hrun rfl rfl ?_ fun q hq => ?_
    · rw [Table.setProc, slot_setSlot_self, proc_goto]
      rfl
    · rw [Table.setProc, slot_setSlot_of_ne hq, proc_goto]
      rfl
  case waitScan addr index havekids =>
    split at hstep
    · split at hstep
      · split at hstep
        · cases hstep
        split at hstep
        · exact some.inj hstep ▸ .setSlot_goto rfl rfl rfl (.of_eq rfl)
        · exact some.inj hstep ▸ .goto rfl rfl rfl
      · exact some.inj hstep ▸ .goto rfl rfl rfl
    · repeat' split at hstep
      all_goals first | cases hstep; done | exact some.inj hstep ▸ .goto rfl rfl rfl
  case waitFound addr c => exact some.inj hstep ▸ reap_outcome h hpc
  case sleepLock addr =>
    split at hstep
    · cases hstep
    · exact some.inj hstep ▸ .setSlot_goto rfl rfl rfl (.of_eq rfl)
  case sleepSet addr =>
    obtain rfl := some.inj hstep
    refine .setSlot (.live ?_ (by simp))
    rw [show (s.slot p).proc.state = _ from hrun]
    simp
  case asleep addr => exact some.inj hstep ▸ .setSlot (.of_eq rfl)
  case kill pid index =>
    split at hstep
    · split at hstep
      · cases hstep
      split at hstep
      case isTrue hpid =>
        obtain rfl := some.inj hstep
        exact .setSlot_goto rfl rfl rfl (.killed index (by rw [hpid]; exact hpc) rfl)
      case isFalse => exact some.inj hstep ▸ .goto rfl rfl rfl
    · exact some.inj hstep ▸ .goto rfl rfl rfl
  -- the remaining places move on with the locks at most
  all_goals repeat' split at hstep
  all_goals first | cases hstep; done | exact some.inj hstep ▸ .goto rfl rfl rfl

theorem next_outcome (h : Family s) (hnext : s.next e = some s') : Outcome s s' e.actor := by
  unfold Table.next at hnext
  split at hnext
  case isFalse => cases hnext
  case isTrue hp =>
  cases e
  all_goals dsimp only at hnext
  all_goals split at hnext
  case step.isTrue hrun => exact step_outcome h hp hrun hnext
  case run.isTrue hrunnable =>
    obtain rfl := some.inj hnext
    exact .setSlot (.live (by rw [hrunnable.1]; simp) (by simp))
  case yield.isTrue hyield =>
    obtain rfl := some.inj hnext
    exact .setSlot (.live (by rw [hyield.1]; simp) (by simp))
  case swtch.isTrue => exact some.inj hnext ▸ .setSlot (.of_eq rfl)
  case kexec.isTrue => exact some.inj hnext ▸ .setSlot (.kept rfl rfl rfl rfl)
  case sbrk.isTrue => exact some.inj hnext ▸ .setSlot (.kept rfl rfl rfl rfl)
  case mapzero.isTrue => exact some.inj hnext ▸ .setSlot (.kept rfl rfl rfl rfl)
  all_goals first | cases hnext; done | exact some.inj hnext ▸ .goto rfl rfl rfl

/-! ## Free slots -/

/-- The process that takes the step is not in a call of `kkill` with 0, the identifier of
the free slots. -/
def NamesProcess (s : Table) (e : TableEvent) : Prop :=
  ∀ index, (s.slot e.actor).pc ≠ .kill 0 index

/-- No free slot is marked as killed. -/
def Unmarked (s : Table) : Prop := ∀ q, s.state q = .UNUSED → (s.slot q).proc.killed = false

theorem Unmarked.next (h : Unmarked s) (hfamily : Family s) (hok : s.NamesProcess e)
    (hnext : s.next e = some s') : Unmarked s' := by
  intro q hunused
  cases next_outcome hfamily hnext with
  | quiet _ _ hchange =>
    cases hchange q with
    | kept hstate hkilled _ _ =>
      rw [hkilled]
      exact h q (hstate.symm.trans hunused)
    | live _ hnew => exact absurd hunused hnew.1
    | alloc _ hused _ => cases hused.symm.trans hunused
    | freed _ hnew =>
      rw [hnew]
      rfl
    | killed index hpc hnew =>
      -- the identifier of a free slot is 0, and nobody looks for it
      have hold : s.state q = .UNUSED := by
        have hst : (s'.slot q).proc.state = .UNUSED := hunused
        rw [hnew] at hst
        simp only [Proc.kill] at hst
        split at hst
        · cases hst
        · exact hst
      rw [((hfamily.slots q).blank hold).pid] at hpc
      exact absurd hpc (hok index)
  | exit status _ _ _ _ hself hother =>
    by_cases hqp : q = e.actor
    · rw [hqp, state, hself] at hunused
      cases hunused
    · rw [state, hother q hqp] at hunused
      rw [hother q hqp]
      exact h q hunused
  | reap addr z _ _ _ _ _ hself hother =>
    by_cases hqz : q = z
    · rw [hqz, hself]
      rfl
    · rw [state, hother q hqz] at hunused
      rw [hother q hqz]
      exact h q hunused

theorem next_step (h : s.next (.step p input) = some s') :
    p < NPROC ∧ s.state p = .RUNNING ∧ s.step p input = some s' := by
  unfold Table.next at h
  split at h
  case isFalse => cases h
  case isTrue hp =>
    dsimp only at h
    split at h
    · exact ⟨hp, ‹_›, h⟩
    · cases h

theorem userinit_initial : Initial (userinit 1 1) :=
  ⟨1, 1, Nat.one_ne_zero, Nat.one_ne_zero, rfl⟩

/-- Identifier and status of a process that has exited and was not waited for. -/
def unreported (p : Proc) : Multiset (Int × Int) :=
  if p.state = .ZOMBIE then {(p.pid, p.xstate)} else 0

/-- The exits that no `kwait` has reported yet. -/
def zombies (s : Table) : Multiset (Int × Int) :=
  ∑ q ∈ range NPROC, unreported (s.slot q).proc

def Reaped.exit (r : Reaped) : Int × Int := (r.pid, r.status)

/-- Every exit was reported once, or its process is still a zombie. -/
def Accounted (s : Table) : Prop :=
  (s.exited : Multiset (Int × Int)) = (s.reaped.map Reaped.exit : Multiset (Int × Int)) + s.zombies

theorem Change.unreported_eq {old : Proc} (h : Change pc old new) :
    unreported new = unreported old := by
  cases h with
  | kept hstate _ hpid hxstate => rw [unreported, unreported, hstate, hpid, hxstate]
  | live hold hnew => rw [unreported, unreported, if_neg hold.2, if_neg hnew.2]
  | alloc hold hnew _ => rw [unreported, unreported, hold, hnew, if_neg (by simp), if_neg (by simp)]
  | freed hold hnew =>
    rw [unreported, unreported, if_neg hold, hnew]
    rfl
  | killed index _ hnew =>
    rw [unreported, unreported, hnew]
    simp only [Proc.kill]
    split <;> simp_all

theorem zombies_congr (h : ∀ q, unreported (s'.slot q).proc = unreported (s.slot q).proc) :
    s'.zombies = s.zombies := sum_congr rfl fun q _ => h q

/-- What changes when one process does. -/
theorem zombies_update (hz : z < NPROC)
    (hother : ∀ q, q ≠ z → (s'.slot q).proc = (s.slot q).proc) :
    s'.zombies + unreported (s.slot z).proc = s.zombies + unreported (s'.slot z).proc :=
  have hsame : ∀ q ∈ Finset.range NPROC, q ≠ z →
      unreported (s'.slot q).proc = unreported (s.slot q).proc :=
    fun q _ hne => congrArg unreported (hother q hne)
  Tally.sum_change (mem_range.mpr hz) hsame

theorem Accounted.next (h : Accounted s) (hfamily : Family s) (hnext : s.next e = some s') :
    Accounted s' := by
  cases next_outcome hfamily hnext with
  | quiet hexited hreaped hchange =>
    rw [Accounted, hexited, hreaped, zombies_congr fun q => (hchange q).unreported_eq]
    exact h
  | exit status hp hrun hexited hreaped hself hother =>
    have hupdate := zombies_update hp hother
    have hold : unreported (s.slot e.actor).proc = 0 :=
      if_neg (by rw [show (s.slot e.actor).proc.state = _ from hrun]; simp)
    have hnew : unreported (s'.slot e.actor).proc = {((s.slot e.actor).proc.pid, status)} := by
      rw [hself]
      rfl
    rw [hold, hnew, add_zero] at hupdate
    rw [Accounted, hexited, hreaped, hupdate, ← add_assoc, ← h]
    rfl
  | reap addr z hpc hfound hret hexited hreaped hself hother =>
    have hupdate := zombies_update (hfamily.lt_of_parent hfound.parent).2 hother
    have hold : unreported (s.slot z).proc = {((s.slot z).proc.pid, (s.slot z).proc.xstate)} :=
      if_pos hfound.zombie
    have hnew : unreported (s'.slot z).proc = 0 := by
      rw [hself]
      rfl
    rw [hold, hnew, add_zero] at hupdate
    rw [Accounted, hexited, hreaped, h, ← hupdate, map_append, ← Multiset.coe_add, add_assoc,
      add_comm s'.zombies]
    rfl

theorem Initial.accounted (h : Initial s) : Accounted s := by
  obtain ⟨trapframe, pagetable, -, -, rfl⟩ := h
  have hnone : (userinit trapframe pagetable).zombies = 0 := by
    refine sum_eq_zero fun q _ => if_neg ?_
    by_cases hq : q = 0 <;> simp [userinit, hq, freedProc]
  rw [Accounted, hnone]
  rfl

theorem Reachable.accounted {ok : Table → TableEvent → Prop} (h : Reachable ok s) : Accounted s := by
  have hboth := Machine.Reach.invariant (P := fun s => Family s ∧ Accounted s)
    (fun _ hs => ⟨hs.family, hs.accounted⟩)
    (fun _ _ _ hs _ hnext => ⟨hs.1.next hnext, hs.2.next hs.1 hnext⟩) h
  exact hboth.2

/-- A zombie stays what it is, or is taken by a `kwait` of its parent that returns its
identifier. -/
theorem Family.zombie_next (h : Family s) (hnext : s.next e = some s') (hz : s.state z = .ZOMBIE) :
    (s'.state z = .ZOMBIE ∧ (s'.slot z).proc.pid = (s.slot z).proc.pid ∧
      (s'.slot z).proc.xstate = (s.slot z).proc.xstate) ∨
    (s.parent z = some e.actor ∧ (∃ addr, (s.slot e.actor).pc = .waitFound addr z) ∧
      (s'.slot e.actor).pc = .user (s.slot z).proc.pid ∧
      s'.reaped = s.reaped ++ [⟨e.actor, (s.slot z).proc.pid, (s.slot z).proc.xstate⟩] ∧
      (s'.slot z).proc = freedProc) := by
  cases next_outcome h hnext with
  | quiet _ _ hchange =>
    refine .inl ?_
    have heq := (hchange z).unreported_eq
    rw [unreported, unreported, if_pos (show (s.slot z).proc.state = _ from hz)] at heq
    split at heq
    case isTrue hzombie =>
      have hpair := Multiset.singleton_inj.mp heq
      simp only [Prod.mk.injEq] at hpair
      exact ⟨hzombie, hpair⟩
    case isFalse => exact absurd heq.symm (Multiset.singleton_ne_zero _)
  | exit status _ hrun _ _ _ hother =>
    have hne : z ≠ e.actor := ne_of_running hrun (by rw [hz]; simp)
    refine .inl ?_
    rw [state, hother z hne]
    exact ⟨hz, rfl, rfl⟩
  | reap addr y hpc hfound hret _ hreaped hself hother =>
    by_cases hzy : z = y
    · subst hzy
      exact .inr ⟨hfound.parent, ⟨addr, hpc⟩, hret, hreaped, hself⟩
    · refine .inl ?_
      rw [state, hother z hzy]
      exact ⟨hz, rfl, rfl⟩

/-- Exit and wait in every interleaving of `kfork`, `kexit`, `kwait` and `kkill`: while
`wait_lock` is free, processes have living parents and nobody sleeps in `kwait` beside a
zombie child; every exit is reported once, by a `kwait` of the parent, which frees the
slot; and a `kwait` whose `copyout` fails leaves the zombie. -/
theorem wait_exit_accounting (h : Reachable (fun _ _ => True) s) :
    (s.waitLock = none → ∀ q, (s.state q).Alive ∨ s.state q = .ZOMBIE → q ≠ s.initproc →
      ∃ w, s.parent q = some w ∧ s.state w ≠ .UNUSED ∧ s.state w ≠ .ZOMBIE) ∧
    (s.exited : Multiset (Int × Int)) =
      (s.reaped.map Reaped.exit : Multiset (Int × Int)) + s.zombies ∧
    (∀ e s' z, s.next e = some s' → s.state z = .ZOMBIE →
      (s'.state z = .ZOMBIE ∧ (s'.slot z).proc.pid = (s.slot z).proc.pid ∧
        (s'.slot z).proc.xstate = (s.slot z).proc.xstate) ∨
      (s.parent z = some e.actor ∧ (∃ addr, (s.slot e.actor).pc = .waitFound addr z) ∧
        (s'.slot e.actor).pc = .user (s.slot z).proc.pid ∧
        s'.reaped = s.reaped ++ [⟨e.actor, (s.slot z).proc.pid, (s.slot z).proc.xstate⟩] ∧
        (s'.slot z).proc = freedProc)) ∧
    (∀ p addr z s', (s.slot p).pc = .waitFound addr z → addr ≠ 0 →
      s.next (.step p none) = some s' →
      s'.state z = .ZOMBIE ∧ (s'.slot z).proc = (s.slot z).proc ∧ (s'.slot p).pc = .user (-1) ∧
        s'.reaped = s.reaped) ∧
    (s.waitLock = none → ∀ q z, s.state q = .SLEEPING → s.parent z = some q →
      s.state z ≠ .ZOMBIE) := by
  have hfamily : Family s := Reachable.family h
  refine ⟨fun _ q hq hne => ?_, Reachable.accounted h,
    fun e s' z hnext hz => hfamily.zombie_next hnext hz, ?_, ?_⟩
  · obtain ⟨w, hw⟩ := ne_none_iff_exists'.mp (hfamily.hasParent q hq hne)
    obtain hs | hs | hs := (hfamily.parentAlive q w hw).1
    all_goals exact ⟨w, hw, by rw [hs]; simp, by rw [hs]; simp⟩
  · intro p addr z s' hpc haddr hnext
    obtain ⟨-, -, hstep⟩ := next_step hnext
    simp only [step, hpc] at hstep
    obtain rfl := some.inj hstep
    have hfound := hfamily.facts p
    rw [hpc] at hfound
    have hne : p ≠ z := (hfamily.parentAlive z p hfound.parent).2
    have hproc : ((s.reap p addr z none).slot z).proc = (s.slot z).proc := by
      rw [reap, if_pos ⟨haddr, rfl⟩, setLocked, slot_setSlot_self, proc_goto]
      rfl
    rw [state, hproc]
    refine ⟨hfound.zombie, rfl, ?_, ?_⟩
    · rw [reap, if_pos ⟨haddr, rfl⟩, setLocked, slot_setSlot_of_ne hne, pc_goto_self]
    · rw [reap, if_pos ⟨haddr, rfl⟩]
      rfl
  · intro hlock q z hsleep hparent hzombie
    have hwaits : s.Waits q := .inl ⟨hsleep, (hfamily.slots q).chan hsleep⟩
    obtain ⟨r, hr, -⟩ := hfamily.missed z q hzombie hparent hwaits
    cases hlock.symm.trans hr

/-- Init forks a process, which exits with status 7, and waits for it. -/
def forkExitWait : List TableEvent :=
  .run 0 :: .kfork 0 :: replicate 5 (.step 0 (some (1, 1))) ++ .run 1 :: .kexit 1 7 ::
    replicate 133 (.step 1 none) ++ .swtch 1 :: .kwait 0 0 :: replicate 4 (.step 0 none)

/-- The exit is reported once, by init. -/
theorem wait_exit_accounting_once :
    ∃ s, Reachable (fun _ _ => True) s ∧ s.reaped = [⟨0, 2, 7⟩] ∧ (s.slot 0).pc = .user 2 ∧
      (s.exited : Multiset (Int × Int)) =
        (s.reaped.map Reaped.exit : Multiset (Int × Int)) + s.zombies := by
  have hrun : (Machine.run Table.next (userinit 1 1) forkExitWait).map
      (fun s => (s.reaped, (s.slot 0).pc)) = some ([⟨0, 2, 7⟩], .user 2) := by
    decide +kernel
  obtain ⟨s, hs, hview⟩ := map_eq_some_iff.mp hrun
  have hreach : Reachable (fun _ _ => True) s :=
    (Machine.Reach.start userinit_initial).of_run (fun _ _ _ => trivial) hs
  simp only [Prod.mk.injEq] at hview
  exact ⟨s, hreach, hview.1, hview.2, (wait_exit_accounting hreach).2.1⟩

end Table

end EAFITos
