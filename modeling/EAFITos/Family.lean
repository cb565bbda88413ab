/-
The invariant of the process table: who holds which lock, which slots are free, who is
whose parent, and whom the holder of `wait_lock` still has to wake.
-/
import EAFITos.Lifecycle

namespace EAFITos

open Function

namespace CallPc

def holdsWait : CallPc → Prop
  | .reparent _ _ | .wakeup _ _ _ | .exitLock _ | .exitZombie _ | .waitScan _ _ _
  | .waitFound _ _ | .sleepLock _ | .sleepUnlock _ => True
  | _ => False

/-- The process holds its own lock. -/
def holdsSelf : CallPc → Prop
  | .exitZombie _ | .exitSched | .sleepUnlock _ | .sleepSet _ => True
  | _ => False

def exiting : CallPc → Prop
  | .exitWait _ | .reparent _ _ | .wakeup _ _ _ | .exitLock _ | .exitZombie _ | .exitSched => True
  | _ => False

/-- The slot that `kfork` is setting up. -/
def child : CallPc → Option Nat
  | .forkCopy c | .forkParent c _ | .forkRun c _ => some c
  | _ => none

/-- The parent of that slot so far. -/
def childParent (p : Nat) : CallPc → Option Nat
  | .forkRun _ _ => some p
  | _ => none

/-- The states a process can be in at a place of the code. -/
def StateOk : CallPc → ProcState → Prop
  | .user _, st => st ≠ .SLEEPING
  | .asleep _, st => st = .SLEEPING ∨ st = .RUNNABLE ∨ st = .RUNNING
  | .exitSched, st => st = .RUNNING ∨ st = .ZOMBIE
  | pc, st => st = .RUNNING ∨ pc.interruptible ∧ st = .RUNNABLE

theorem StateOk.running_of_holdsWait {pc : CallPc} {st : ProcState} (h : pc.StateOk st)
    (hholds : pc.holdsWait) : st = .RUNNING := by
  cases pc <;> first | exact absurd hholds id | simpa [StateOk, interruptible] using h

end CallPc

def ProcState.Alive (st : ProcState) : Prop := st = .RUNNABLE ∨ st = .RUNNING ∨ st = .SLEEPING

/-- A slot without a process, apart from `killed`. -/
structure Proc.Blank (p : Proc) : Prop where
  pid : p.pid = 0
  sz : p.sz = 0
  pagetable : p.pagetable = 0
  trapframe : p.trapframe = 0
  parent : p.parent = none
  hasRegion : p.hasRegion = false

/-- The process of slot `q` sleeps in `kwait`, or has given up `wait_lock` in order to. -/
def Slot.Waits (t : Slot) (q : Nat) : Prop :=
  (t.proc.state = .SLEEPING ∧ t.chan = some q) ∨ ∃ addr, t.pc = .sleepSet addr

/-- What holds of each slot by itself. -/
structure Slot.Ok (t : Slot) (waitLock : Option Nat) (initproc q : Nat) : Prop where
  holder : t.pc.holdsWait ↔ waitLock = some q
  self : t.pc.holdsSelf → t.locked = some q
  state : t.pc.StateOk t.proc.state
  chan : t.proc.state = .SLEEPING → t.chan = some q
  blank : t.proc.state = .UNUSED → t.proc.Blank
  exiting : t.pc.exiting → q ≠ initproc

namespace Table

def state (s : Table) (q : Nat) : ProcState := (s.slot q).proc.state

def parent (s : Table) (q : Nat) : Option Nat := (s.slot q).proc.parent

def Waits (s : Table) (q : Nat) : Prop := (s.slot q).Waits q

/-- No slot below `bound` has `p` as its parent. -/
def Orphaned (s : Table) (p bound : Nat) : Prop := ∀ q, q < bound → s.parent q ≠ some p

/-- No slot below `bound` is a zombie child of `p`. -/
def NoZombies (s : Table) (p bound : Nat) : Prop :=
  ∀ z, z < bound → s.parent z = some p → s.state z ≠ .ZOMBIE

/-- A zombie child of `p` that has left for the scheduler. -/
structure Found (s : Table) (p z : Nat) : Prop where
  zombie : s.state z = .ZOMBIE
  parent : s.parent z = some p
  gone : ¬ (s.slot z).pc.holdsSelf

/-- What the holder of `wait_lock` knows at its place in the code. -/
def Facts (s : Table) (p : Nat) : CallPc → Prop
  | .reparent _ index => s.Orphaned p index
  | .wakeup _ _ (.reparent _ index) => s.Orphaned p index
  | .wakeup chan index (.exitLock _) => s.Orphaned p NPROC ∧ chan = s.parent p ∧
      ∀ w, s.parent p = some w → w < index → ¬ s.Waits w
  | .exitLock _ | .exitZombie _ => s.Orphaned p NPROC ∧ ∀ w, s.parent p = some w → ¬ s.Waits w
  | .waitScan _ index _ => s.NoZombies p index
  | .waitFound _ z => s.Found p z
  | .sleepLock _ | .sleepUnlock _ => s.NoZombies p NPROC
  | _ => True

/-- The holder of `wait_lock` wakes `w` before it gives up the lock. -/
def WillWake (w : Nat) : CallPc → Prop
  | .wakeup chan index _ => chan = some w ∧ index ≤ w
  | _ => False

structure Family (s : Table) : Prop where
  slots : ∀ q, (s.slot q).Ok s.waitLock s.initproc q
  bound : ∀ q, NPROC ≤ q → s.state q = .UNUSED
  initAlive : (s.state s.initproc).Alive
  initParent : s.parent s.initproc = none
  child : ∀ p c, (s.slot p).pc.child = some c →
    s.state c = .USED ∧ s.parent c = (s.slot p).pc.childParent p
  childInj : ∀ p q c, (s.slot p).pc.child = some c → (s.slot q).pc.child = some c → p = q
  parentAlive : ∀ q w, s.parent q = some w → (s.state w).Alive ∧ w ≠ q
  hasParent : ∀ q, (s.state q).Alive ∨ s.state q = .ZOMBIE → q ≠ s.initproc → s.parent q ≠ none
  facts : ∀ p, s.Facts p (s.slot p).pc
  missed : ∀ z w, s.state z = .ZOMBIE → s.parent z = some w → s.Waits w →
    ∃ h, s.waitLock = some h ∧ WillWake w (s.slot h).pc

variable {s s' : Table} {p q z : Nat} {pc : CallPc}

theorem Facts.of_not_holdsWait (h : ¬ pc.holdsWait) : s.Facts p pc := by
  cases pc with
  | wakeup chan index after => exact absurd trivial h
  | _ => first | trivial | exact absurd trivial h

/-- The facts survive what other processes do without `wait_lock`. -/
theorem Facts.mono (h : s.Facts p pc)
    (hparent : ∀ q, s'.parent q = some p → s.parent q = some p)
    (hself : s'.parent p = s.parent p)
    (hzombie : ∀ z, s'.parent z = some p → s'.state z = .ZOMBIE → s.state z = .ZOMBIE)
    (hwaits : ∀ w, s'.Waits w → s.Waits w)
    (hfound : ∀ z, s.Found p z → s'.Found p z) : s'.Facts p pc := by
  have horphaned : ∀ bound, s.Orphaned p bound → s'.Orphaned p bound :=
    fun bound ho q hq heq => ho q hq (hparent q heq)
  have hnone : ∀ bound, s.NoZombies p bound → s'.NoZombies p bound :=
    fun bound hn z hz heq hzom => hn z hz (hparent z heq) (hzombie z heq hzom)
  cases pc with
  | reparent status index => exact horphaned _ h
  | wakeup chan index after =>
    cases after with
    | reparent status i => exact horphaned _ h
    | exitLock status =>
      obtain ⟨ho, hchan, hwoken⟩ := h
      exact ⟨horphaned _ ho, hchan.trans hself.symm,
        fun w hw hlt hwait => hwoken w (hself ▸ hw) hlt (hwaits w hwait)⟩
  | exitLock status =>
    exact ⟨horphaned _ h.1, fun w hw hwait => h.2 w (hself ▸ hw) (hwaits w hwait)⟩
  | exitZombie status =>
    exact ⟨horphaned _ h.1, fun w hw hwait => h.2 w (hself ▸ hw) (hwaits w hwait)⟩
  | waitScan addr index havekids => exact hnone _ h
  | waitFound addr z => exact hfound z h
  | sleepLock addr => exact hnone _ h
  | sleepUnlock addr => exact hnone _ h
  | _ => trivial

@[simp] theorem slot_setSlot_self (s : Table) (z : Nat) (t : Slot) : (s.setSlot z t).slot z = t :=
  update_self _ _ _

theorem slot_setSlot_of_ne {t : Slot} (h : q ≠ z) : (s.setSlot z t).slot q = s.slot q :=
  update_of_ne h _ _

/-- A change of one slot that keeps the invariant. -/
structure Harmless (s : Table) (z : Nat) (t : Slot) : Prop where
  bound : z < NPROC
  ok : t.Ok s.waitLock s.initproc z
  pc : t.pc = (s.slot z).pc ∨ ¬ t.pc.holdsWait ∧ t.pc.child = none
  alive : (s.state z).Alive →
    t.proc.state.Alive ∨ (∀ q, s.parent q ≠ some z) ∧ z ≠ s.initproc
  zombie : t.proc.state = .ZOMBIE → s.state z = .ZOMBIE ∨
    s.waitLock = none ∧ ∀ w, t.proc.parent = some w → ¬ s.Waits w
  found : s.state z = .ZOMBIE → t.proc.state = .ZOMBIE ∨ s.waitLock = none
  parent : t.proc.parent = s.parent z ∨ t.proc.state = .UNUSED
  hasParent : t.proc.state.Alive ∨ t.proc.state = .ZOMBIE → z ≠ s.initproc →
    t.proc.parent ≠ none
  owned : ∀ p, (s.slot p).pc.child = some z →
    t.proc.state = .USED ∧ t.proc.parent = s.parent z
  waits : t.Waits z → s.Waits z
  self : t.pc.holdsSelf → (s.slot z).pc.holdsSelf

section SetSlot

variable {t : Slot} (ht : Harmless s z t)
include ht

theorem Harmless.parent_le {q w : Nat} (hq : (s.setSlot z t).parent q = some w) :
    s.parent q = some w := by
  by_cases hqz : q = z
  · subst hqz
    simp only [Table.parent, slot_setSlot_self] at hq
    obtain heq | hunused := ht.parent
    · exact heq ▸ hq
    · rw [(ht.ok.blank hunused).parent] at hq
      cases hq
  · rwa [Table.parent, slot_setSlot_of_ne hqz] at hq

theorem Harmless.waits_le {q : Nat} (hq : (s.setSlot z t).Waits q) : s.Waits q := by
  by_cases hqz : q = z
  · subst hqz
    rw [Waits, slot_setSlot_self] at hq
    exact ht.waits hq
  · rwa [Waits, slot_setSlot_of_ne hqz] at hq

theorem Harmless.child_le {p c : Nat} (hc : ((s.setSlot z t).slot p).pc.child = some c) :
    (s.slot p).pc.child = some c ∧ ((s.setSlot z t).slot p).pc = (s.slot p).pc := by
  by_cases hpz : p = z
  · subst hpz
    rw [slot_setSlot_self] at hc ⊢
    obtain heq | ⟨-, hnone⟩ := ht.pc
    · exact ⟨heq ▸ hc, heq⟩
    · rw [hnone] at hc
      cases hc
  · rw [slot_setSlot_of_ne hpz] at hc ⊢
    exact ⟨hc, rfl⟩

variable (h : Family s)
include h

theorem Harmless.alive_le {q w : Nat} (hparent : s.parent q = some w) :
    ((s.setSlot z t).state w).Alive := by
  have halive := (h.parentAlive q w hparent).1
  by_cases hwz : w = z
  · subst hwz
    rw [state, slot_setSlot_self]
    obtain hok | hnone := ht.alive halive
    · exact hok
    · exact absurd hparent (hnone.1 q)
  · rwa [state, slot_setSlot_of_ne hwz]

theorem Harmless.facts (p : Nat) : (s.setSlot z t).Facts p ((s.setSlot z t).slot p).pc := by
  by_cases hholds : ((s.setSlot z t).slot p).pc.holdsWait
  case neg => exact Facts.of_not_holdsWait hholds
  have hpc : ((s.setSlot z t).slot p).pc = (s.slot p).pc ∧ (s.setSlot z t).parent p = s.parent p := by
    by_cases hpz : p = z
    · subst hpz
      rw [Table.parent, slot_setSlot_self] at *
      obtain heq | ⟨hnot, -⟩ := ht.pc
      · refine ⟨heq, ?_⟩
        obtain hsame | hunused := ht.parent
        · exact hsame
        · cases hunused.symm.trans (ht.ok.state.running_of_holdsWait hholds)
      · exact absurd hholds hnot
    · rw [Table.parent, slot_setSlot_of_ne hpz]
      exact ⟨rfl, rfl⟩
  rw [hpc.1] at hholds ⊢
  have hlock : s.waitLock = some p := (h.slots p).holder.mp hholds
  have hfree : s.waitLock ≠ none := by rw [hlock]; simp
  refine (h.facts p).mono (fun q => ht.parent_le) hpc.2 ?_ (fun w => ht.waits_le) ?_
  · intro q hq hzom
    by_cases hqz : q = z
    · subst hqz
      rw [state, slot_setSlot_self] at hzom
      obtain hold | ⟨hnone, -⟩ := ht.zombie hzom
      · exact hold
      · exact absurd hnone hfree
    · rwa [state, slot_setSlot_of_ne hqz] at hzom
  · rintro q ⟨hzom, hq, hgone⟩
    by_cases hqz : q = z
    · subst hqz
      obtain hnew | hnone := ht.found hzom
      · obtain hsame | hunused := ht.parent
        · refine ⟨?_, ?_, ?_⟩
          · rwa [state, slot_setSlot_self]
          · rw [Table.parent, slot_setSlot_self]
            exact hsame.trans hq
          · rw [slot_setSlot_self]
            exact fun hs => hgone (ht.self hs)
        · cases hnew.symm.trans hunused
      · exact absurd hnone hfree
    · refine ⟨?_, ?_, ?_⟩
      · rwa [state, slot_setSlot_of_ne hqz]
      · rwa [Table.parent, slot_setSlot_of_ne hqz]
      · rwa [slot_setSlot_of_ne hqz]

theorem Family.setSlot : Family (s.setSlot z t) := by
  constructor
  · exact (forall_update_iff s.slot fun q t => t.Ok s.waitLock s.initproc q).mpr
      ⟨ht.ok, fun q _ => h.slots q⟩
  · intro q hq
    have hqz : q ≠ z := by have := ht.bound; omega
    rw [state, slot_setSlot_of_ne hqz]
    exact h.bound q hq
  · change ((s.setSlot z t).state s.initproc).Alive
    by_cases hqz : s.initproc = z
    · have halive := ht.alive (hqz ▸ h.initAlive)
      rw [hqz, state, slot_setSlot_self]
      obtain hok | ⟨-, hne⟩ := halive
      · exact hok
      · exact absurd hqz.symm hne
    · rw [state, slot_setSlot_of_ne hqz]
      exact h.initAlive
  · change (s.setSlot z t).parent s.initproc = none
    cases hparent : (s.setSlot z t).parent s.initproc with
    | none => rfl
    | some w => cases h.initParent.symm.trans (ht.parent_le hparent)
  · intro p c hc
    obtain ⟨hold, hpc⟩ := ht.child_le hc
    rw [hpc]
    by_cases hcz : c = z
    · subst hcz
      rw [state, Table.parent, slot_setSlot_self]
      obtain ⟨hused, hsame⟩ := ht.owned p hold
      exact ⟨hused, hsame.trans (h.child p c hold).2⟩
    · rw [state, Table.parent, slot_setSlot_of_ne hcz]
      exact h.child p c hold
  · intro p q c hp hq
    exact h.childInj p q c (ht.child_le hp).1 (ht.child_le hq).1
  · intro q w hq
    have hold := ht.parent_le hq
    exact ⟨ht.alive_le h hold, (h.parentAlive q w hold).2⟩
  · intro q hq hinit
    by_cases hqz : q = z
    · subst hqz
      rw [state, Table.parent, slot_setSlot_self] at *
      exact ht.hasParent hq hinit
    · rw [state, Table.parent, slot_setSlot_of_ne hqz] at *
      exact h.hasParent q hq hinit
  · exact ht.facts h
  · intro x w hzom hparent hwaits
    have hold := ht.parent_le hparent
    have hwold := ht.waits_le hwaits
    have hzold : s.state x = .ZOMBIE := by
      by_cases hxz : x = z
      · subst hxz
        rw [state, Table.parent, slot_setSlot_self] at *
        obtain hz | ⟨-, hnone⟩ := ht.zombie hzom
        · exact hz
        · exact absurd hwold (hnone w hparent)
      · rwa [state, slot_setSlot_of_ne hxz] at hzom
    obtain ⟨r, hr, hwake⟩ := h.missed x w hzold hold hwold
    refine ⟨r, hr, ?_⟩
    by_cases hrz : r = z
    · subst hrz
      rw [slot_setSlot_self]
      obtain heq | ⟨hnot, -⟩ := ht.pc
      · exact heq ▸ hwake
      · exact absurd (ht.ok.holder.mpr hr) hnot
    · rw [slot_setSlot_of_ne hrz]
      exact hwake

end SetSlot

theorem proc_goto (s : Table) (p q : Nat) (pc : CallPc) :
    ((s.goto p pc).slot q).proc = (s.slot q).proc := by
  by_cases hq : q = p
  · subst hq
    rw [goto, slot_setSlot_self]
  · rw [goto, slot_setSlot_of_ne hq]

theorem pc_goto_self (s : Table) (p : Nat) (pc : CallPc) : ((s.goto p pc).slot p).pc = pc := by
  rw [goto, slot_setSlot_self]

theorem slot_goto_of_ne (h : q ≠ p) : (s.goto p pc).slot q = s.slot q := slot_setSlot_of_ne h

/-- A running process goes on at `pc`, and may take or give up `wait_lock`. -/
structure Moves (s : Table) (p : Nat) (holder : Option Nat) (pc : CallPc) : Prop where
  running : s.state p = .RUNNING
  ok : ({ s.slot p with pc := pc } : Slot).Ok holder s.initproc p
  lock : holder = s.waitLock ∨
    (s.waitLock = some p ∨ s.waitLock = none) ∧ (holder = some p ∨ holder = none)
  child : ∀ c, pc.child = some c → s.state c = .USED ∧ s.parent c = pc.childParent p ∧
    ∀ q, q ≠ p → (s.slot q).pc.child ≠ some c
  facts : s.Facts p pc
  sleeps : ∀ addr, pc = .sleepSet addr → holder = none ∧ s.NoZombies p NPROC
  duty : s.waitLock = some p → ∀ w, w < NPROC → s.Waits w → WillWake w (s.slot p).pc →
    holder = some p ∧ WillWake w pc

theorem Family.lt_of_parent {w : Nat} (h : Family s) (hparent : s.parent q = some w) :
    w < NPROC ∧ q < NPROC := by
  have halive := (h.parentAlive q w hparent).1
  constructor
  · by_contra hge
    rw [h.bound w (by omega)] at halive
    simp [ProcState.Alive] at halive
  · by_contra hge
    have hblank := (h.slots q).blank (h.bound q (by omega))
    cases hparent.symm.trans hblank.parent

section Goto

variable {holder : Option Nat} (hm : Moves s p holder pc)
include hm

theorem Moves.waits_le {w : Nat} (hw : ((s.setWait holder).goto p pc).Waits w) :
    s.Waits w ∨ w = p ∧ ∃ addr, pc = .sleepSet addr := by
  by_cases hwp : w = p
  · subst hwp
    rw [Waits, goto, slot_setSlot_self] at hw
    obtain ⟨hstate, -⟩ | hset := hw
    · cases hm.running.symm.trans hstate
    · exact .inr ⟨rfl, hset⟩
  · rw [Waits, slot_goto_of_ne hwp] at hw
    exact .inl hw

theorem Moves.other (h : Family s) {q : Nat} (hq : q ≠ p) :
    (s.slot q).Ok holder s.initproc q := by
  have hslot := h.slots q
  refine ⟨?_, hslot.self, hslot.state, hslot.chan, hslot.blank, hslot.exiting⟩
  obtain rfl | ⟨hold, hnew⟩ := hm.lock
  · exact hslot.holder
  · have hne : ∀ l : Option Nat, l = some p ∨ l = none → l ≠ some q := by
      rintro l (rfl | rfl) heq
      · exact hq (Option.some.inj heq).symm
      · cases heq
    rw [hslot.holder]
    exact ⟨fun hl => absurd hl (hne _ hold), fun hl => absurd hl (hne _ hnew)⟩

theorem Family.goto (h : Family s) : Family ((s.setWait holder).goto p pc) := by
  have hproc : ∀ q, ((((s.setWait holder).goto p pc).slot q).proc) = (s.slot q).proc :=
    fun q => proc_goto (s.setWait holder) p q pc
  have hstate : ∀ q, ((s.setWait holder).goto p pc).state q = s.state q := by
    intro q
    rw [state, hproc q]
    rfl
  have hparent : ∀ q, ((s.setWait holder).goto p pc).parent q = s.parent q := by
    intro q
    rw [Table.parent, hproc q]
    rfl
  have hslots : ∀ q, (((s.setWait holder).goto p pc).slot q).Ok holder s.initproc q :=
    (forall_update_iff s.slot fun q t => t.Ok holder s.initproc q).mpr
      ⟨hm.ok, fun q hq => hm.other h hq⟩
  have hchild : ∀ q c, (((s.setWait holder).goto p pc).slot q).pc.child = some c →
      q = p ∧ pc.child = some c ∨ q ≠ p ∧ (s.slot q).pc.child = some c := by
    intro q c hc
    by_cases hq : q = p
    · subst hq
      rw [pc_goto_self] at hc
      exact .inl ⟨rfl, hc⟩
    · rw [slot_goto_of_ne hq] at hc
      exact .inr ⟨hq, hc⟩
  constructor
  · exact hslots
  · intro q hq
    rw [hstate]
    exact h.bound q hq
  · rw [hstate]
    exact h.initAlive
  · rw [hparent]
    exact h.initParent
  · intro q c hc
    rw [hstate, hparent]
    obtain ⟨rfl, hpc⟩ | ⟨hq, hold⟩ := hchild q c hc
    · rw [pc_goto_self]
      obtain ⟨hused, hpar, -⟩ := hm.child c hpc
      exact ⟨hused, hpar⟩
    · rw [slot_goto_of_ne hq]
      exact h.child q c hold
  · intro q r c hq hr
    obtain ⟨rfl, hpc⟩ | ⟨hqp, hold⟩ := hchild q c hq
    · obtain ⟨rfl, -⟩ | ⟨hrp, hold'⟩ := hchild r c hr
      · rfl
      · exact absurd hold' ((hm.child c hpc).2.2 r hrp)
    · obtain ⟨rfl, hpc⟩ | ⟨hrp, hold'⟩ := hchild r c hr
      · exact absurd hold ((hm.child c hpc).2.2 q hqp)
      · exact h.childInj q r c hold hold'
  · intro q w hq
    rw [hstate]
    exact h.parentAlive q w (hparent q ▸ hq)
  · intro q hq
    rw [hstate] at hq
    rw [hparent]
    exact h.hasParent q hq
  · intro q
    by_cases hholds : (((s.setWait holder).goto p pc).slot q).pc.holdsWait
    case neg => exact Facts.of_not_holdsWait hholds
    have hlock : holder = some q := (hslots q).holder.mp hholds
    have hwaits : ∀ w, ((s.setWait holder).goto p pc).Waits w → s.Waits w := by
      intro w hw
      obtain hold | ⟨-, addr, hset⟩ := hm.waits_le hw
      · exact hold
      · cases hlock.symm.trans (hm.sleeps addr hset).1
    have hfacts : s.Facts q (((s.setWait holder).goto p pc).slot q).pc := by
      by_cases hq : q = p
      · subst hq
        rw [pc_goto_self]
        exact hm.facts
      · rw [slot_goto_of_ne hq]
        exact h.facts q
    refine hfacts.mono (fun r hr => hparent r ▸ hr) (hparent q) (fun r _ hr => hstate r ▸ hr) hwaits ?_
    rintro r ⟨hzom, hpar, hgone⟩
    have hrp : r ≠ p := by
      rintro rfl
      cases hm.running.symm.trans hzom
    exact ⟨(hstate r).trans hzom, (hparent r).trans hpar, by rwa [slot_goto_of_ne hrp]⟩
  · intro x w hzom hpar hwaits
    rw [hstate] at hzom
    rw [hparent] at hpar
    obtain hold | ⟨rfl, addr, hset⟩ := hm.waits_le hwaits
    · obtain ⟨r, hr, hwake⟩ := h.missed x w hzom hpar hold
      by_cases hrp : r = p
      · subst hrp
        obtain ⟨hlock, hnew⟩ := hm.duty hr w (h.lt_of_parent hpar).1 hold hwake
        exact ⟨r, hlock, by rw [pc_goto_self]; exact hnew⟩
      · refine ⟨r, ?_, ?_⟩
        · obtain heq | ⟨hheld, -⟩ := hm.lock
          · exact heq.trans hr
          · obtain hp | hp := hheld
            · exact absurd (Option.some.inj (hr.symm.trans hp)) hrp
            · cases hp.symm.trans hr
        · rw [slot_goto_of_ne hrp]
          exact hwake
    · exact absurd hzom ((hm.sleeps addr hset).2 x (h.lt_of_parent hpar).2 hpar)

end Goto

section SetParent

variable {c w : Nat}

/-- The slot `c` gets the parent `w`. -/
def adopt (s : Table) (c w : Nat) : Table := s.setProc c fun pp => { pp with parent := some w }

theorem slot_setProc_of_ne {f : Proc → Proc} (h : q ≠ c) : (s.setProc c f).slot q = s.slot q :=
  slot_setSlot_of_ne h

theorem adopt_state (s : Table) (c w q : Nat) : (s.adopt c w).state q = s.state q := by
  by_cases hq : q = c
  · subst hq
    rw [state, adopt, setProc, slot_setSlot_self]
    rfl
  · rw [state, adopt, slot_setProc_of_ne hq]
    rfl

theorem adopt_pc (s : Table) (c w q : Nat) : ((s.adopt c w).slot q).pc = (s.slot q).pc := by
  by_cases hq : q = c
  · subst hq
    rw [adopt, setProc, slot_setSlot_self]
  · rw [adopt, slot_setProc_of_ne hq]

theorem adopt_waits (s : Table) (c w q : Nat) : (s.adopt c w).Waits q ↔ s.Waits q := by
  by_cases hq : q = c
  · subst hq
    rw [Waits, adopt, setProc, slot_setSlot_self]
    rfl
  · rw [Waits, adopt, slot_setProc_of_ne hq]
    rfl

theorem adopt_parent_self (s : Table) (c w : Nat) : (s.adopt c w).parent c = some w := by
  rw [Table.parent, adopt, setProc, slot_setSlot_self]

theorem adopt_parent_of_ne (h : q ≠ c) : (s.adopt c w).parent q = s.parent q := by
  rw [Table.parent, adopt, slot_setProc_of_ne h]
  rfl

theorem Family.adopt (h : Family s) (hinit : c ≠ s.initproc) (hwc : w ≠ c)
    (halive : (s.state w).Alive) (hused : s.state c ≠ .UNUSED)
    (howned : ∀ q, (s.slot q).pc.child ≠ some c)
    (hfacts : ∀ q, s.waitLock = some q → (s.adopt c w).Facts q (s.slot q).pc)
    (hmissed : s.state c = .ZOMBIE → s.Waits w →
      ∃ r, s.waitLock = some r ∧ WillWake w (s.slot r).pc) : Family (s.adopt c w) := by
  constructor
  · refine (forall_update_iff s.slot fun q t => t.Ok s.waitLock s.initproc q).mpr
      ⟨?_, fun q _ => h.slots q⟩
    have hslot := h.slots c
    exact ⟨hslot.holder, hslot.self, hslot.state, hslot.chan, fun hu => absurd hu hused,
      hslot.exiting⟩
  · intro q hq
    rw [adopt_state]
    exact h.bound q hq
  · change ((s.adopt c w).state s.initproc).Alive
    rw [adopt_state]
    exact h.initAlive
  · change (s.adopt c w).parent s.initproc = none
    rw [adopt_parent_of_ne hinit.symm]
    exact h.initParent
  · intro q c' hc
    rw [adopt_pc] at hc ⊢
    have hne : c' ≠ c := fun heq => howned q (heq ▸ hc)
    rw [adopt_state, adopt_parent_of_ne hne]
    exact h.child q c' hc
  · intro q r c' hq hr
    rw [adopt_pc] at hq hr
    exact h.childInj q r c' hq hr
  · intro q v hq
    rw [adopt_state]
    by_cases hqc : q = c
    · subst hqc
      rw [adopt_parent_self] at hq
      obtain rfl := Option.some.inj hq
      exact ⟨halive, hwc⟩
    · rw [adopt_parent_of_ne hqc] at hq
      exact h.parentAlive q v hq
  · intro q hq hne
    rw [adopt_state] at hq
    by_cases hqc : q = c
    · subst hqc
      rw [adopt_parent_self]
      simp
    · rw [adopt_parent_of_ne hqc]
      exact h.hasParent q hq hne
  · intro q
    rw [adopt_pc]
    by_cases hholds : (s.slot q).pc.holdsWait
    · exact hfacts q ((h.slots q).holder.mp hholds)
    · exact Facts.of_not_holdsWait hholds
  · intro x v hzom hpar hwaits
    rw [adopt_state] at hzom
    rw [adopt_waits] at hwaits
    have hold : ∃ r, s.waitLock = some r ∧ WillWake v (s.slot r).pc := by
      by_cases hxc : x = c
      · subst hxc
        rw [adopt_parent_self] at hpar
        obtain rfl := Option.some.inj hpar
        exact hmissed hzom hwaits
      · rw [adopt_parent_of_ne hxc] at hpar
        exact h.missed x v hzom hpar hwaits
    obtain ⟨r, hr, hwake⟩ := hold
    exact ⟨r, hr, by rw [adopt_pc]; exact hwake⟩

/-- Where the process stood when a slot of another process was changed makes no difference
after it has moved on. -/
theorem goto_setSlot_goto {t : Slot} {pc' : CallPc} (hne : c ≠ p) :
    ((s.goto p pc').setSlot c t).goto p pc = (s.setSlot c t).goto p pc := by
  simp only [goto, setSlot, Table.mk.injEq, and_true]
  simp only [update_of_ne hne.symm, update_self]
  rw [update_comm hne, update_idem, update_comm hne]

end SetParent

end Table

end EAFITos
