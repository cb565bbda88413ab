/-
Sleeping on a pipe: whom the holder of `pi->lock` still has to wake, and who may be
asleep once the lock is free.
-/
import EAFITos.Pipe

namespace EAFITos

open Function Option

namespace PipePc

variable {pc : PipePc} {n : Int} {i index : Nat} {chan : PipeChan}

variable {lock : Option Nat} {pc' : PipePc}

/-- The process holds `pi->lock`. -/
def holdsLock : PipePc → Prop
  | .returned _ | .enter _ | .sleepSet _ _ | .asleep _ => False
  | _ => True

/-- The process holds its own `p->lock`. -/
def holdsOwn : PipePc → Bool
  | .sleepUnlock _ _ | .sleepSet _ _ => true
  | _ => false

/-- The process is in the loop of `pipewrite`, with `pi->lock` held. -/
def writing : PipePc → Prop
  | .writeTop _ _ | .writeKilled _ _ | .writeBody _ _ => True
  | _ => False

end PipePc

/-- The process sleeps on `c`, or has given up `pi->lock` in order to. -/
def PipeProc.Waits (t : PipeProc) (c : PipeChan) : Prop :=
  (t.state = .SLEEPING ∧ t.chan = some c) ∨ ∃ call, t.pc = .sleepSet c call

namespace PipeState

/-- What the sleepers on a channel wait for has not happened. -/
def Blocked (s : PipeState) : PipeChan → Prop
  | .nread => s.nread = s.nwrite ∧ s.writeopen = true
  | .nwrite => s.isFull ∧ s.readopen = true

/-- The holder of the lock wakes `q` before it gives up the lock, should `q` sleep
on `c`. -/
def WillWake (s : PipeState) (t : PipeProc) (c : PipeChan) (q : Nat) : Prop :=
  match t.pc with
  | .writeTop _ _ | .writeKilled _ _ | .writeBody _ _ =>
    c = .nread ∧ t.killed = false ∧ s.readopen = true
  | .readCopy _ _ => c = .nwrite
  | .wakeup chan index _ => c = chan ∧ index ≤ q
  | _ => False

/-- A process goes to sleep on a channel only while it is blocked. -/
def Ready (s : PipeState) : AfterWakeup → Prop
  | .sleep c _ => s.Blocked c
  | _ => True

/-- What the holder of the lock has tested. -/
def Tested (s : PipeState) (t : PipeProc) : Prop :=
  match t.pc with
  | .writeKilled _ _ => s.readopen = true
  | .writeBody _ _ => s.readopen = true ∧ t.killed = false
  | .readKilled _ => s.Blocked .nread
  | .wakeup _ _ after => s.Ready after
  | .sleepLock c _ => s.Blocked c
  | .sleepUnlock c _ => s.Blocked c
  | _ => True

end PipeState

/-- A process holds the locks that its place in the code says, and is SLEEPING only in
`sleep`. -/
structure PipeProc.Proper (lock : Option Nat) (p : Nat) (t : PipeProc) : Prop where
  holder : t.pc.holdsLock ↔ lock = some p
  own : t.locked = t.pc.holdsOwn
  sleeping : t.state = .SLEEPING → ∃ call, t.pc = .asleep call

theorem PipeProc.Proper.state_ne {p : Nat} {t : PipeProc} (h : t.Proper lock p)
    (hholds : t.pc.holdsLock) : t.state ≠ .SLEEPING := by
  intro hstate
  obtain ⟨call, hpc⟩ := h.sleeping hstate
  rw [hpc] at hholds
  exact hholds

theorem PipeProc.Proper.not_waits {p : Nat} {t : PipeProc} {c : PipeChan} (h : t.Proper lock p)
    (hholds : t.pc.holdsLock) : ¬ t.Waits c := by
  rintro (⟨hstate, -⟩ | ⟨call, hpc⟩)
  · exact h.state_ne hholds hstate
  · rw [hpc] at hholds
    exact hholds

/-- Taking or giving up the lock concerns no other process. -/
theorem PipeProc.Proper.other {lock' : Option Nat} {p q : Nat} {t : PipeProc}
    (h : t.Proper lock q) (hq : q ≠ p) (hlock : lock = some p ∨ lock = none)
    (hlock' : lock' = some p ∨ lock' = none) : t.Proper lock' q ∧ ¬ t.pc.holdsLock := by
  have hne : ∀ l : Option Nat, l = some p ∨ l = none → l ≠ some q := by
    rintro l (rfl | rfl) heq
    · exact hq (some.inj heq).symm
    · cases heq
  have hnot : ¬ t.pc.holdsLock := fun hholds => hne lock hlock (h.holder.mp hholds)
  exact ⟨⟨⟨fun hholds => absurd hholds hnot, fun heq => absurd heq (hne lock' hlock')⟩,
    h.own, h.sleeping⟩, hnot⟩

namespace PipeState

variable {s s' : PipeState} {p : Nat} {t : PipeProc}

/-- Nobody waits for something that has happened, except for those that the holder of the
lock will wake. -/
structure NoneMissed (s : PipeState) : Prop where
  proper : ∀ p, (s.proc p).Proper s.lock p
  tested : ∀ p, s.Tested (s.proc p)
  missed : ∀ q, q < NPROC → ∀ c, (s.proc q).Waits c →
    s.Blocked c ∨ ∃ p, s.lock = some p ∧ s.WillWake (s.proc p) c q

theorem Tested.of_not_holdsLock (s : PipeState) (h : ¬ t.pc.holdsLock) : s.Tested t := by
  unfold Tested
  split <;> first | trivial | (rename_i hpc; rw [hpc] at h; exact absurd trivial h)

section

variable (h : NoneMissed s)
include h

theorem NoneMissed.own_step (hold : ¬ (s.proc p).pc.holdsLock) (hnew : ¬ t.pc.holdsLock)
    (hown : t.locked = t.pc.holdsOwn) (hsleep : t.state = .SLEEPING → ∃ call, t.pc = .asleep call)
    (hwaits : ∀ c, t.Waits c → (s.proc p).Waits c) : NoneMissed (s.setProc p t) := by
  have hlock : s.lock ≠ some p := fun hlock => hold ((h.proper p).holder.mpr hlock)
  constructor
  · exact (forall_update_iff s.proc fun q t => t.Proper s.lock q).mpr
      ⟨⟨⟨fun hp => absurd hp hnew, fun hp => absurd hp hlock⟩, hown, hsleep⟩, fun q _ => h.proper q⟩
  · exact (forall_update_iff s.proc fun _ t => s.Tested t).mpr
      ⟨Tested.of_not_holdsLock s hnew, fun q _ => h.tested q⟩
  · intro q hq c hwait
    have hbefore : (s.proc q).Waits c :=
      (forall_update_iff s.proc fun q t => t.Waits c → (s.proc q).Waits c).mpr
        ⟨hwaits c, fun _ _ hw => hw⟩ q hwait
    obtain hblocked | ⟨r, hr, hwake⟩ := h.missed q hq c hbefore
    · exact .inl hblocked
    · have hrp : r ≠ p := fun heq => hlock (heq ▸ hr)
      refine .inr ⟨r, hr, ?_⟩
      change s.WillWake (Function.update s.proc p t r) c q
      rw [update_of_ne hrp]
      exact hwake

/-- A process with the lock, or one that takes the free lock, changes itself and the pipe:
it has to go on in the duty of waking those whose wait is over. -/
theorem NoneMissed.lock_step (hlock : s.lock = some p ∨ s.lock = none)
    (hproc : s'.proc = Function.update s.proc p t) (hlock' : s'.lock = some p)
    (hnew : t.pc.holdsLock) (hown : t.locked = t.pc.holdsOwn) (hstate : t.state ≠ .SLEEPING)
    (htested : s'.Tested t) (hduty : ∀ q, q < NPROC → q ≠ p → ∀ c, (s.proc q).Waits c →
      s.Blocked c ∨ s.lock = some p ∧ s.WillWake (s.proc p) c q →
      s'.Blocked c ∨ s'.WillWake t c q) : NoneMissed s' := by
  have hself : t.Proper s'.lock p :=
    ⟨⟨fun _ => hlock', fun _ => hnew⟩, hown, fun hs => absurd hs hstate⟩
  have hother := fun q hq => (h.proper q).other hq hlock (.inl hlock')
  constructor
  · rw [hproc]
    exact (forall_update_iff s.proc fun q t => t.Proper s'.lock q).mpr
      ⟨hself, fun q hq => (hother q hq).1⟩
  · rw [hproc]
    exact (forall_update_iff s.proc fun _ t => s'.Tested t).mpr
      ⟨htested, fun q hq => Tested.of_not_holdsLock s' (hother q hq).2⟩
  · intro q hq c hwait
    have hqp : q ≠ p := by
      rintro rfl
      rw [hproc, update_self] at hwait
      exact hself.not_waits hnew hwait
    rw [hproc, update_of_ne hqp] at hwait
    have hbefore : s.Blocked c ∨ s.lock = some p ∧ s.WillWake (s.proc p) c q := by
      obtain hblocked | ⟨r, hr, hwake⟩ := h.missed q hq c hwait
      · exact .inl hblocked
      · obtain hlock | hlock := hlock
        · obtain rfl := some.inj (hlock.symm.trans hr)
          exact .inr ⟨hlock, hwake⟩
        · cases hlock.symm.trans hr
    obtain hblocked | hwake := hduty q hq hqp c hwait hbefore
    · exact .inl hblocked
    · refine .inr ⟨p, hlock', ?_⟩
      rw [hproc, update_self]
      exact hwake

theorem NoneMissed.release (hlock : s.lock = some p) (hproc : s'.proc = Function.update s.proc p t)
    (hlock' : s'.lock = none) (hblocked : ∀ c, s'.Blocked c ↔ s.Blocked c) (hnew : ¬ t.pc.holdsLock)
    (hown : t.locked = t.pc.holdsOwn) (hstate : t.state ≠ .SLEEPING)
    (hdone : ∀ c q, ¬ s.WillWake (s.proc p) c q) (hwaits : ∀ c, t.Waits c → s.Blocked c) :
    NoneMissed s' := by
  have hself : t.Proper s'.lock p :=
    ⟨⟨fun hp => absurd hp hnew, fun hp => by rw [hlock'] at hp; cases hp⟩, hown,
      fun hs => absurd hs hstate⟩
  have hother := fun q hq => (h.proper q).other hq (.inl hlock) (.inr hlock')
  constructor
  · rw [hproc]
    exact (forall_update_iff s.proc fun q t => t.Proper s'.lock q).mpr
      ⟨hself, fun q hq => (hother q hq).1⟩
  · rw [hproc]
    exact (forall_update_iff s.proc fun _ t => s'.Tested t).mpr
      ⟨Tested.of_not_holdsLock s' hnew, fun q hq => Tested.of_not_holdsLock s' (hother q hq).2⟩
  · intro q hq c hwait
    refine .inl ((hblocked c).mpr ?_)
    by_cases hqp : q = p
    · subst hqp
      rw [hproc, update_self] at hwait
      exact hwaits c hwait
    · rw [hproc, update_of_ne hqp] at hwait
      obtain hb | ⟨r, hr, hwake⟩ := h.missed q hq c hwait
      · exact hb
      · obtain rfl := some.inj (hlock.symm.trans hr)
        exact absurd hwake (hdone c q)

theorem NoneMissed.goto (hpc : (s.proc p).pc = pc) (hholds : pc.holdsLock)
    (hproc : s'.proc = s.proc) (hlock : s'.lock = s.lock) (hnew : pc'.holdsLock)
    (hown : pc.holdsOwn = pc'.holdsOwn) (htested : s'.Tested { s.proc p with pc := pc' })
    (hduty : ∀ q, q < NPROC → q ≠ p → ∀ c, (s.proc q).Waits c →
      s.Blocked c ∨ s.WillWake (s.proc p) c q →
      s'.Blocked c ∨ s'.WillWake { s.proc p with pc := pc' } c q) : NoneMissed (s'.goto p pc') := by
  have hp := h.proper p
  have hholds : (s.proc p).pc.holdsLock := hpc ▸ hholds
  have hlockp : s.lock = some p := hp.holder.mp hholds
  refine h.lock_step (t := { s.proc p with pc := pc' }) (.inl hlockp) ?_ (hlock.trans hlockp)
    hnew (hp.own.trans ((congrArg _ hpc).trans hown)) (hp.state_ne hholds) htested ?_
  · rw [← hproc]
    rfl
  · intro q hq hqp c hwait hbefore
    exact hduty q hq hqp c hwait (hbefore.imp_right And.right)

theorem NoneMissed.stay (hpc : (s.proc p).pc = pc) (hholds : pc.holdsLock) (hnew : pc'.holdsLock)
    (hown : pc.holdsOwn = pc'.holdsOwn) (htested : s.Tested { s.proc p with pc := pc' })
    (hduty : ∀ q, q < NPROC → q ≠ p → ∀ c, (s.proc q).Waits c → s.WillWake (s.proc p) c q →
      s.WillWake { s.proc p with pc := pc' } c q) : NoneMissed (s.goto p pc') :=
  h.goto hpc hholds rfl rfl hnew hown htested fun q hq hqp c hwait hbefore =>
    hbefore.imp_right (hduty q hq hqp c hwait)

theorem NoneMissed.wake_readers {after : AfterWakeup} (hpc : (s.proc p).pc = pc)
    (hwriting : pc = .writeTop n i ∨ pc = .writeBody n i)
    (htested : s.Tested { s.proc p with pc := .wakeup .nread 0 after }) :
    NoneMissed (s.goto p (.wakeup .nread 0 after)) := by
  obtain rfl | rfl := hwriting
  all_goals
    refine h.stay hpc trivial trivial rfl htested fun q _ _ c _ hwake => ?_
    simp only [WillWake, hpc] at hwake
    exact ⟨hwake.1, Nat.zero_le q⟩

theorem NoneMissed.wake_writers {r : Int} (hpc : (s.proc p).pc = .readCopy n i) :
    NoneMissed (s.goto p (.wakeup .nwrite 0 (.unlock r))) := by
  refine h.stay hpc trivial trivial rfl trivial fun q _ _ c _ hwake => ?_
  simp only [WillWake, hpc] at hwake
  exact ⟨hwake, Nat.zero_le q⟩

theorem NoneMissed.append (hpc : (s.proc p).pc = .writeBody n i) (hroom : ¬ s.isFull) (ch : UInt8) :
    NoneMissed ((s.append ch).goto p (.writeTop n (i + 1))) := by
  have htested := h.tested p
  simp only [Tested, hpc] at htested
  refine h.goto hpc trivial rfl rfl trivial rfl trivial fun q _ _ c _ hbefore => ?_
  -- the pipe is not full, so no writer waits, and the readers will be woken
  cases c with
  | nread => exact .inr ⟨rfl, htested.2, htested.1⟩
  | nwrite =>
    simp only [WillWake, hpc] at hbefore
    obtain hblocked | hwake := hbefore
    · exact absurd hblocked.1 hroom
    · cases hwake.1

theorem NoneMissed.deliver (hpc : (s.proc p).pc = .readCopy n i) (hsome : s.nread ≠ s.nwrite) :
    NoneMissed (s.deliver.goto p (.readCopy n (i + 1))) := by
  refine h.goto hpc trivial rfl rfl trivial rfl trivial fun q _ _ c _ hbefore => ?_
  cases c with
  | nread =>
    simp only [WillWake, hpc] at hbefore
    obtain hblocked | hwake := hbefore
    · exact absurd hblocked.1 hsome
    · cases hwake
  | nwrite => exact .inr rfl

end

theorem setProc_proc_self (s : PipeState) (p : Nat) (t : PipeProc) : (s.setProc p t).proc p = t :=
  update_self _ _ _

theorem wake_proc_of_ne (hne : p ≠ index) :
    (s.wake chan index).proc p = s.proc p := by
  rw [PipeState.wake]
  split
  · exact update_of_ne hne _ _
  · rfl

section

variable (h : NoneMissed s)
include h

theorem NoneMissed.not_waits_wake (hown : (s.proc index).locked = false) :
    ¬ ((s.wake chan index).proc index).Waits chan := by
  have hset : ∀ call, (s.proc index).pc ≠ .sleepSet chan call := by
    intro call hpc
    have hlocked := (h.proper index).own
    rw [hown, hpc] at hlocked
    cases hlocked
  rw [PipeState.wake]
  split
  case isTrue =>
    rw [setProc_proc_self]
    rintro (⟨hstate, -⟩ | ⟨call, hpc⟩)
    · cases hstate
    · exact hset call hpc
  case isFalse hasleep =>
    rintro (hwait | ⟨call, hpc⟩)
    · exact hasleep hwait
    · exact hset call hpc

theorem NoneMissed.wake_one (hfree : ¬ (s.proc index).pc.holdsLock) :
    NoneMissed (s.wake chan index) := by
  rw [PipeState.wake]
  split
  · refine h.own_step hfree hfree (h.proper index).own (by rintro ⟨⟩) ?_
    rintro c (⟨hstate, -⟩ | hset)
    · cases hstate
    · exact .inr hset
  · exact h

/-- One round of the loop of `wakeup`. -/
theorem NoneMissed.wake {after : AfterWakeup} (hpc : (s.proc p).pc = .wakeup chan index after)
    (hne : index ≠ p) (hown : (s.proc index).locked = false) :
    NoneMissed ((s.wake chan index).goto p (.wakeup chan (index + 1) after)) := by
  have hlock : s.lock = some p := (h.proper p).holder.mp (hpc ▸ trivial)
  have hwake : NoneMissed (s.wake chan index) :=
    h.wake_one ((h.proper index).other hne (.inl hlock) (.inl hlock)).2
  have hself : (s.wake chan index).proc p = s.proc p := wake_proc_of_ne hne.symm
  have hpc' : ((s.wake chan index).proc p).pc = .wakeup chan index after := by rw [hself, hpc]
  have htested := hwake.tested p
  simp only [Tested, hpc'] at htested
  refine hwake.stay hpc' trivial trivial rfl htested fun q _ _ c hwait hw => ?_
  simp only [WillWake, hpc'] at hw
  obtain ⟨rfl, hle⟩ := hw
  have hq : q ≠ index := fun heq => h.not_waits_wake hown (heq ▸ hwait)
  exact ⟨rfl, by omega⟩

theorem NoneMissed.enter {call : PipeCall} (hpc : (s.proc p).pc = .enter call)
    (hlock : s.lock = none) : NoneMissed ({ s with lock := some p }.entered p call) := by
  have hp := h.proper p
  have hstate : (s.proc p).state ≠ .SLEEPING := by
    intro hs
    obtain ⟨call', hasleep⟩ := hp.sleeping hs
    cases hpc.symm.trans hasleep
  have hown : (s.proc p).locked = false := hp.own.trans (by rw [hpc]; rfl)
  have hblocked : ∀ c q, s.Blocked c ∨ s.lock = some p ∧ s.WillWake (s.proc p) c q →
      s.Blocked c := by
    rintro c q (hb | ⟨hl, -⟩)
    · exact hb
    · cases hlock.symm.trans hl
  cases call with
  | write n i =>
    exact h.lock_step (.inr hlock) rfl rfl trivial hown hstate trivial
      fun q _ _ c _ hb => .inl (hblocked c q hb)
  | read n =>
    exact h.lock_step (.inr hlock) rfl rfl trivial hown hstate trivial
      fun q _ _ c _ hb => .inl (hblocked c q hb)
  | close writable =>
    cases writable with
    | true =>
      refine h.lock_step (.inr hlock) rfl rfl trivial hown hstate trivial fun q _ _ c _ hb => ?_
      cases c with
      | nread => exact .inr ⟨rfl, Nat.zero_le q⟩
      | nwrite => exact .inl (hblocked .nwrite q hb)
    | false =>
      refine h.lock_step (.inr hlock) rfl rfl trivial hown hstate trivial fun q _ _ c _ hb => ?_
      cases c with
      | nread => exact .inl (hblocked .nread q hb)
      | nwrite => exact .inr ⟨rfl, Nat.zero_le q⟩

/-- The lock is given up where nobody is left to be woken. -/
theorem NoneMissed.unlock (hpc : (s.proc p).pc = pc) (hholds : pc.holdsLock)
    (hproc : s'.proc = s.proc) (hlock : s'.lock = none)
    (hblocked : ∀ c, s'.Blocked c ↔ s.Blocked c) (hnew : ¬ pc'.holdsLock)
    (hown : pc.holdsOwn = pc'.holdsOwn) (hdone : ∀ c q, ¬ s.WillWake (s.proc p) c q)
    (hset : ∀ c call, pc' = .sleepSet c call → s.Blocked c) : NoneMissed (s'.goto p pc') := by
  have hp := h.proper p
  have hholds : (s.proc p).pc.holdsLock := hpc ▸ hholds
  refine h.release (t := { s.proc p with pc := pc' }) (hp.holder.mp hholds) ?_ hlock hblocked hnew
    (hp.own.trans ((congrArg _ hpc).trans hown)) (hp.state_ne hholds) hdone ?_
  · rw [← hproc]
    rfl
  · rintro c (⟨hstate, -⟩ | ⟨call, hcall⟩)
    · exact absurd hstate (hp.state_ne hholds)
    · exact hset c call hcall

/-- The steps of a call on the pipe. -/
theorem NoneMissed.step {input : Option UInt8} (hstep : s.step p input = some s') :
    NoneMissed s' := by
  have htested := h.tested p
  cases hpc : (s.proc p).pc
  all_goals simp only [PipeState.step, hpc] at hstep
  all_goals simp only [Tested, hpc] at htested
  case returned r => cases hstep
  case enter call =>
    split at hstep
    case isTrue hfree => exact some.inj hstep ▸ h.enter hpc hfree.1
    case isFalse => cases hstep
  case writeTop n i =>
    split at hstep
    · split at hstep
      · obtain rfl := some.inj hstep
        refine h.stay hpc trivial trivial rfl trivial fun q _ _ c _ hwake => ?_
        simp_all [WillWake]
      · obtain rfl := some.inj hstep
        refine h.stay hpc trivial trivial rfl (by simp_all [Tested]) fun q _ _ c _ hwake => ?_
        simpa only [WillWake, hpc] using hwake
    · exact some.inj hstep ▸ h.wake_readers hpc (.inl rfl) trivial
  case writeKilled n i =>
    split at hstep
    · obtain rfl := some.inj hstep
      refine h.stay hpc trivial trivial rfl trivial fun q _ _ c _ hwake => ?_
      simp_all [WillWake]
    · obtain rfl := some.inj hstep
      refine h.stay hpc trivial trivial rfl (by simp_all [Tested]) fun q _ _ c _ hwake => ?_
      simpa only [WillWake, hpc] using hwake
  case writeBody n i =>
    split at hstep
    case isTrue hfull =>
      exact some.inj hstep ▸ h.wake_readers hpc (.inr rfl) ⟨hfull, htested.1⟩
    case isFalse hroom =>
      cases input with
      | none => exact some.inj hstep ▸ h.wake_readers hpc (.inr rfl) trivial
      | some ch => exact some.inj hstep ▸ h.append hpc hroom ch
  case readTop n =>
    split at hstep
    case isTrue hempty =>
      obtain rfl := some.inj hstep
      refine h.stay hpc trivial trivial rfl hempty fun q _ _ c _ hwake => ?_
      simp only [WillWake, hpc] at hwake
    case isFalse =>
      obtain rfl := some.inj hstep
      refine h.stay hpc trivial trivial rfl trivial fun q _ _ c _ hwake => ?_
      simp only [WillWake, hpc] at hwake
  case readKilled n =>
    split at hstep
    · obtain rfl := some.inj hstep
      refine h.stay hpc trivial trivial rfl trivial fun q _ _ c _ hwake => ?_
      simp only [WillWake, hpc] at hwake
    · obtain rfl := some.inj hstep
      refine h.stay hpc trivial trivial rfl htested fun q _ _ c _ hwake => ?_
      simp only [WillWake, hpc] at hwake
  case readCopy n i =>
    split at hstep
    · split at hstep
      case isTrue => exact some.inj hstep ▸ h.wake_writers hpc
      case isFalse hsome =>
        cases input with
        | none => exact some.inj hstep ▸ h.wake_writers hpc
        | some ch => exact some.inj hstep ▸ h.deliver hpc hsome
    · exact some.inj hstep ▸ h.wake_writers hpc
  case wakeup chan index after =>
    split at hstep
    · split at hstep
      case isTrue hself =>
        obtain rfl := some.inj hstep
        refine h.stay hpc trivial trivial rfl htested fun q _ hqp c _ hwake => ?_
        simp only [WillWake, hpc] at hwake
        exact ⟨hwake.1, by omega⟩
      case isFalse hne =>
        split at hstep
        · cases hstep
        · exact some.inj hstep ▸ h.wake hpc hne (Bool.eq_false_of_not_eq_true ‹_›)
    case isFalse hend =>
      have hnone : ∀ q, q < NPROC → ∀ c, ¬ s.WillWake (s.proc p) c q := by
        intro q hq c hwake
        simp only [WillWake, hpc] at hwake
        omega
      obtain rfl := some.inj hstep
      cases after with
      | sleep c call =>
        exact h.stay hpc trivial trivial rfl htested fun q hq _ c _ hw => absurd hw (hnone q hq c)
      | unlock r =>
        exact h.stay hpc trivial trivial rfl trivial fun q hq _ c _ hw => absurd hw (hnone q hq c)
      | closeUnlock =>
        exact h.stay hpc trivial trivial rfl trivial fun q hq _ c _ hw => absurd hw (hnone q hq c)
  case sleepLock chan call =>
    split at hstep
    · cases hstep
    · obtain rfl := some.inj hstep
      have hp := h.proper p
      have hholds : (s.proc p).pc.holdsLock := hpc ▸ trivial
      refine h.lock_step (.inl (hp.holder.mp hholds)) rfl (hp.holder.mp hholds) trivial rfl
        (hp.state_ne hholds) htested fun q _ _ c _ hbefore => ?_
      simp only [WillWake, hpc, and_false] at hbefore
      exact hbefore
  case sleepUnlock chan call =>
    obtain rfl := some.inj hstep
    refine h.unlock hpc trivial rfl rfl (fun _ => Iff.rfl) id rfl ?_ ?_
    · intro c q hwake
      simp only [WillWake, hpc] at hwake
    · intro c call' hcall
      cases hcall
      exact htested
  case sleepSet chan call =>
    obtain rfl := some.inj hstep
    refine h.own_step (by rw [hpc]; exact id) id rfl (fun _ => ⟨call, rfl⟩) ?_
    rintro c (⟨-, hchan⟩ | ⟨call', hcall⟩)
    · exact .inr ⟨call, by rw [hpc, some.inj hchan]⟩
    · cases hcall
  case asleep call =>
    split at hstep
    · cases hstep
    · obtain rfl := some.inj hstep
      have hown : (s.proc p).locked = false := (h.proper p).own.trans (by rw [hpc]; rfl)
      refine h.own_step (by rw [hpc]; exact id) id hown (fun hs => absurd hs ‹_›) ?_
      rintro c (⟨-, hchan⟩ | ⟨call', hcall⟩)
      · cases hchan
      · cases hcall
  case unlock r =>
    obtain rfl := some.inj hstep
    refine h.unlock hpc trivial rfl rfl (fun _ => Iff.rfl) id rfl ?_ (by rintro _ _ ⟨⟩)
    intro c q hwake
    simp only [WillWake, hpc] at hwake
  case closeUnlock =>
    obtain rfl := some.inj hstep
    refine h.unlock hpc trivial rfl rfl (fun _ => Iff.rfl) id rfl ?_ (by rintro _ _ ⟨⟩)
    intro c q hwake
    simp only [WillWake, hpc] at hwake

theorem NoneMissed.kkill (hq : ¬ (s.proc p).pc.writing) (hkill : s.kkill p = some s') :
    NoneMissed s' := by
  have hp := h.proper p
  simp only [PipeState.kkill] at hkill
  split at hkill
  · cases hkill
  obtain rfl := some.inj hkill
  by_cases hholds : (s.proc p).pc.holdsLock
  · have hlock := hp.holder.mp hholds
    have hstate := hp.state_ne hholds
    refine h.lock_step (.inl hlock) rfl hlock hholds hp.own ?_ ?_ ?_
    · rw [if_neg hstate]
      exact hstate
    · have htested := h.tested p
      revert hq htested
      simp only [Tested]
      cases (s.proc p).pc <;> simp [PipePc.writing] <;> exact id
    · intro q _ _ c _ hbefore
      refine hbefore.imp id ?_
      rintro ⟨-, hwake⟩
      revert hq hwake
      simp only [WillWake]
      cases (s.proc p).pc <;> simp [PipePc.writing]
  · refine h.own_step hholds hholds hp.own ?_ ?_
    · intro hs
      split at hs
      · cases hs
      · exact hp.sleeping hs
    · rintro c (⟨hs, hchan⟩ | hset)
      · split at hs
        · cases hs
        · exact .inl ⟨hs, hchan⟩
      · exact .inr hset

end

/-- A `kkill` does not mark a process that is in the loop of `pipewrite` and holds
`pi->lock`. -/
def SparesWriter (s : PipeState) : PipeEvent → Prop
  | .kkill q => ¬ (s.proc q).pc.writing
  | _ => True

theorem NoneMissed.begin {call : PipeCall} (h : NoneMissed s)
    (hbegin : s.begin p call = some s') : NoneMissed s' := by
  obtain ⟨⟨r, hpc⟩, rfl⟩ := begin_eq hbegin
  have hp := h.proper p
  have hown : (s.proc p).locked = false := hp.own.trans (by rw [hpc]; rfl)
  have hstate : (s.proc p).state ≠ .SLEEPING := by
    intro hs
    obtain ⟨call', hasleep⟩ := hp.sleeping hs
    cases hpc.symm.trans hasleep
  refine h.own_step (by rw [hpc]; exact id) id hown (fun hs => absurd hs hstate) ?_
  rintro c (⟨hs, -⟩ | ⟨call', hcall⟩)
  · exact absurd hs hstate
  · cases hcall

theorem NoneMissed.next {e : PipeEvent} (h : NoneMissed s) (hspares : s.SparesWriter e)
    (hnext : s.next e = some s') : NoneMissed s' := by
  unfold PipeState.next at hnext
  split at hnext
  · cases e with
    | pipewrite p n => exact h.begin hnext
    | piperead p n => exact h.begin hnext
    | pipeclose p writable => exact h.begin hnext
    | step p input => exact h.step hnext
    | kkill q => exact h.kkill hspares hnext
  · cases hnext

theorem Initial.noneMissed (h : Initial s) : NoneMissed s := by
  constructor
  · intro p
    obtain ⟨hstate, -, hlocked, r, hpc⟩ := h.proc p
    refine ⟨⟨fun hholds => ?_, fun hlock => ?_⟩, ?_, fun hs => ?_⟩
    · rw [hpc] at hholds
      cases hholds
    · cases h.lock.symm.trans hlock
    · rw [hlocked, hpc]
      rfl
    · cases hstate.symm.trans hs
  · intro p
    obtain ⟨-, -, -, r, hpc⟩ := h.proc p
    exact Tested.of_not_holdsLock s (by rw [hpc]; exact id)
  · rintro q - c (⟨hs, -⟩ | ⟨call, hset⟩)
    · cases (h.proc q).1.symm.trans hs
    · obtain ⟨-, -, -, r, hpc⟩ := h.proc q
      cases hpc.symm.trans hset

theorem Reachable.noneMissed (h : Reachable SparesWriter s) : NoneMissed s :=
  Machine.Reach.invariant (fun _ => Initial.noneMissed)
    (fun _ _ _ hinv hspares hnext => hinv.next hspares hnext) h

/-- In every run in which no process is killed inside the loop of `pipewrite`, whoever
sleeps on the pipe while `pi->lock` is free has something to wait for: readers an empty
pipe with a writer, writers a full pipe with a reader. -/
theorem sleeps_only_blocked (h : Reachable SparesWriter s) (hlock : s.lock = none) (hp : p < NPROC)
    (hsleep : (s.proc p).state = .SLEEPING) :
    ((s.proc p).chan = some .nread → s.count = 0 ∧ s.writeopen = true) ∧
      ((s.proc p).chan = some .nwrite → s.count = PIPESIZE ∧ s.readopen = true) := by
  have hfifo : Fifo s := Reachable.fifo h
  have hblocked : ∀ c, (s.proc p).chan = some c → s.Blocked c := by
    intro c hchan
    obtain hb | ⟨r, hr, -⟩ := (Reachable.noneMissed h).missed p hp c (.inl ⟨hsleep, hchan⟩)
    · exact hb
    · cases hlock.symm.trans hr
  constructor
  · intro hchan
    obtain ⟨hempty, hopen⟩ := hblocked _ hchan
    exact ⟨hfifo.empty_iff.mp hempty, hopen⟩
  · intro hchan
    obtain ⟨hfull, hopen⟩ := hblocked _ hchan
    exact ⟨hfifo.isFull_iff.mp hfull, hopen⟩

/-- A reader falls asleep on an empty pipe. -/
def readerSleeps : List PipeEvent := .piperead 0 1 :: List.replicate 6 (.step 0 none)

/-- The reader that has fallen asleep waits for the first byte. -/
theorem sleeps_only_blocked_reader :
    ∃ s, Reachable SparesWriter s ∧ (s.proc 0).state = .SLEEPING ∧
      (s.proc 0).chan = some .nread ∧ s.count = 0 ∧ s.writeopen = true := by
  have hrun : (Machine.run PipeState.next pipealloc readerSleeps).map
      (fun s => (s.lock, (s.proc 0).state, (s.proc 0).chan)) =
      some (none, .SLEEPING, some .nread) := by
    decide +kernel
  obtain ⟨s, hs, hview⟩ := Option.map_eq_some_iff.mp hrun
  have hreach : Reachable SparesWriter s :=
    (Machine.Reach.start pipealloc_initial).of_run (by simp [readerSleeps, SparesWriter]) hs
  simp only [Prod.mk.injEq] at hview
  obtain ⟨hlock, hstate, hchan⟩ := hview
  exact ⟨s, hreach, hstate, hchan,
    (sleeps_only_blocked hreach hlock (by decide) hstate).1 hchan⟩

/-- While the reader sleeps, a writer of two bytes is killed after the first: it leaves
`pipewrite` through the test of `killed`, which wakes nobody. -/
def writerKilled : List PipeEvent :=
  readerSleeps ++ .pipewrite 1 2 :: List.replicate 4 (.step 1 (some 65)) ++ .kkill 1 ::
    List.replicate 3 (.step 1 none)

/-- The reader sleeps on a pipe that holds a byte, with the lock free. -/
theorem sleeping_reader_misses_byte :
    ∃ s, Reachable (fun _ _ => True) s ∧ s.lock = none ∧ (s.proc 0).state = .SLEEPING ∧
      (s.proc 0).chan = some .nread ∧ s.contents = [65] := by
  have hrun : (Machine.run PipeState.next pipealloc writerKilled).map
      (fun s => (s.lock, (s.proc 0).state, (s.proc 0).chan, s.contents)) =
      some (none, .SLEEPING, some .nread, [65]) := by
    decide +kernel
  obtain ⟨s, hs, hview⟩ := Option.map_eq_some_iff.mp hrun
  simp only [Prod.mk.injEq] at hview
  exact ⟨s, (Machine.Reach.start pipealloc_initial).of_run (fun _ _ _ => trivial) hs, hview⟩

end PipeState

end EAFITos
