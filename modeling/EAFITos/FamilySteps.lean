/-
Every step of the process table keeps the family invariant: first the four ways in which
a process moves on, then the changes of slots, then the steps of fork, exit, wait and kill.
-/
import EAFITos.Family

namespace EAFITos

open Option

variable {z : Nat} {chan : Option Nat} {after : AfterWake}

variable {f : Proc → Proc} {pid : Int} {havekids : Bool}

theorem CallPc.stateOk_running (pc : CallPc) : pc.StateOk .RUNNING := by
  cases pc <;> simp [StateOk]

theorem CallPc.child_of_holdsWait {pc : CallPc} (h : pc.holdsWait) : pc.child = none := by
  cases pc <;> first | rfl | exact absurd h id

namespace Table

variable {s s' : Table} {p q : Nat} {pc : CallPc}

section

variable (h : Family s)
include h

theorem Family.slot_goto {holder : Option Nat} (hrun : s.state p = .RUNNING)
    (hholder : pc.holdsWait ↔ holder = some p) (hself : pc.holdsSelf → (s.slot p).locked = some p)
    (hexit : pc.exiting → p ≠ s.initproc) :
    ({ s.slot p with pc := pc } : Slot).Ok holder s.initproc p := by
  have hslot := h.slots p
  refine ⟨hholder, hself, ?_, hslot.chan, hslot.blank, hexit⟩
  change pc.StateOk (s.state p)
  rw [hrun]
  exact pc.stateOk_running

section

variable (hrun : s.state p = .RUNNING) (hold : ¬ (s.slot p).pc.holdsWait) (hnew : ¬ pc.holdsWait)
include hrun hold hnew

/-- A move without `wait_lock`, possibly with a child. -/
theorem Family.own (hself : ¬ pc.holdsSelf)
    (hchild : ∀ c, pc.child = some c → s.state c = .USED ∧ s.parent c = pc.childParent p ∧
      ∀ q, q ≠ p → (s.slot q).pc.child ≠ some c) (hexit : pc.exiting → p ≠ s.initproc) :
    Family (s.goto p pc) := by
  have hlock : s.waitLock ≠ some p := fun hl => hold ((h.slots p).holder.mpr hl)
  refine h.goto (⟨hrun, h.slot_goto hrun ?_ ?_ hexit, .inl rfl, hchild, Facts.of_not_holdsWait hnew,
    ?_, fun hl => absurd hl hlock⟩ : Moves s p s.waitLock pc)
  · exact ⟨fun hp => absurd hp hnew, fun hl => absurd hl hlock⟩
  · exact fun hs => absurd hs hself
  · rintro addr rfl
    exact absurd trivial hself

theorem Family.plain (hself : ¬ pc.holdsSelf) (hchild : pc.child = none)
    (hexit : pc.exiting → p ≠ s.initproc) : Family (s.goto p pc) :=
  h.own hrun hold hnew hself (fun c hc => by cases hchild.symm.trans hc) hexit

end

/-- A move with `wait_lock`. -/
theorem Family.held (hold : (s.slot p).pc.holdsWait) (hnew : pc.holdsWait)
    (hself : pc.holdsSelf → (s.slot p).locked = some p) (hexit : pc.exiting → p ≠ s.initproc)
    (hfacts : s.Facts p pc)
    (hduty : ∀ w, w < NPROC → s.Waits w → WillWake w (s.slot p).pc → WillWake w pc) :
    Family (s.goto p pc) := by
  have hlock : s.waitLock = some p := (h.slots p).holder.mp hold
  have hrun : s.state p = .RUNNING := (h.slots p).state.running_of_holdsWait hold
  refine h.goto (⟨hrun, h.slot_goto hrun ⟨fun _ => hlock, fun _ => hnew⟩ hself hexit, .inl rfl, ?_,
    hfacts, ?_, fun _ w hw hwaits hwake => ⟨hlock, hduty w hw hwaits hwake⟩⟩ :
    Moves s p s.waitLock pc)
  · intro c hc
    cases (CallPc.child_of_holdsWait hnew).symm.trans hc
  · rintro addr rfl
    exact absurd hnew id

theorem Family.acquire (hrun : s.state p = .RUNNING) (hfree : s.waitLock = none)
    (hnew : pc.holdsWait) (hself : ¬ pc.holdsSelf) (hexit : pc.exiting → p ≠ s.initproc)
    (hfacts : s.Facts p pc) : Family ((s.setWait (some p)).goto p pc) := by
  refine Family.goto ⟨hrun, h.slot_goto hrun ⟨fun _ => rfl, fun _ => hnew⟩
    (fun hs => absurd hs hself) hexit, .inr ⟨.inr hfree, .inl rfl⟩, ?_, hfacts, ?_, ?_⟩ h
  · intro c hc
    cases (CallPc.child_of_holdsWait hnew).symm.trans hc
  · rintro addr rfl
    exact absurd hnew id
  · intro hl
    cases hfree.symm.trans hl

theorem Family.release (hold : (s.slot p).pc.holdsWait) (hnew : ¬ pc.holdsWait)
    (hself : pc.holdsSelf → (s.slot p).locked = some p) (hchild : pc.child = none)
    (hexit : pc.exiting → p ≠ s.initproc)
    (hsleeps : ∀ addr, pc = .sleepSet addr → s.NoZombies p NPROC)
    (hdone : ∀ w, ¬ WillWake w (s.slot p).pc) : Family ((s.setWait none).goto p pc) := by
  have hlock : s.waitLock = some p := (h.slots p).holder.mp hold
  have hrun : s.state p = .RUNNING := (h.slots p).state.running_of_holdsWait hold
  refine Family.goto ⟨hrun, h.slot_goto hrun ⟨fun hp => absurd hp hnew, nofun⟩ hself
    hexit, .inr ⟨.inl hlock, .inr rfl⟩, ?_, Facts.of_not_holdsWait hnew, ?_, ?_⟩ h
  · intro c hc
    cases hchild.symm.trans hc
  · exact fun addr heq => ⟨rfl, hsleeps addr heq⟩
  · exact fun _ w _ _ hwake => absurd hwake (hdone w)

theorem Family.of_eq (hslot : s'.slot = s.slot) (hlock : s'.waitLock = s.waitLock)
    (hinit : s'.initproc = s.initproc) : Family s' := by
  cases s
  cases s'
  cases hslot
  cases hlock
  cases hinit
  refine ⟨h.slots, h.bound, h.initAlive, h.initParent, h.child, h.childInj, h.parentAlive,
    h.hasParent, fun p => ?_, h.missed⟩
  exact (h.facts p).mono (fun _ => id) rfl (fun _ _ => id) (fun _ => id)
    (fun z hz => ⟨hz.zombie, hz.parent, hz.gone⟩)

/-- The owner of a child is the only one. -/
theorem Family.not_child {c : Nat} (hc : (s.slot p).pc.child = some c) (hnew : pc.child = none)
    (q : Nat) : ((s.goto p pc).slot q).pc.child ≠ some c := by
  intro hq
  by_cases hqp : q = p
  · subst hqp
    rw [pc_goto_self, hnew] at hq
    cases hq
  · rw [slot_goto_of_ne hqp] at hq
    exact hqp (h.childInj q p c hq hc)

theorem Family.setProc (hz : z < NPROC) (hparent : (f (s.slot z).proc).parent = s.parent z)
    (hstate : (f (s.slot z).proc).state = s.state z ∨ (s.state z).Alive ∧
      ((f (s.slot z).proc).state = .RUNNABLE ∨ (f (s.slot z).proc).state = .RUNNING))
    (hok : (s.slot z).pc.StateOk (f (s.slot z).proc).state)
    (hblank : s.state z = .UNUSED → (f (s.slot z).proc).Blank) : Family (s.setProc z f) := by
  have hslot := h.slots z
  have hcases : ∀ st, (f (s.slot z).proc).state = st → ¬ (st = .RUNNABLE ∨ st = .RUNNING) →
      s.state z = st := by
    rintro st heq hne
    obtain hsame | ⟨-, hnew⟩ := hstate
    · exact hsame.symm.trans heq
    · exact absurd (heq ▸ hnew) hne
  have halive : (f (s.slot z).proc).state.Alive → (s.state z).Alive := by
    intro ha
    obtain hsame | ⟨hold, -⟩ := hstate
    · exact hsame ▸ ha
    · exact hold
  refine h.setSlot ⟨hz, ⟨hslot.holder, hslot.self, hok, ?_, ?_, hslot.exiting⟩, .inl rfl, ?_, ?_, ?_,
    .inl hparent, ?_, ?_, ?_, id⟩
  · exact fun hs => hslot.chan (hcases _ hs (by simp))
  · exact fun hu => hblank (hcases _ hu (by simp))
  · intro hold
    refine .inl ?_
    obtain hsame | ⟨-, hnew⟩ := hstate
    · exact hsame.symm ▸ hold
    · exact hnew.elim .inl fun hr => .inr (.inl hr)
  · exact fun hzom => .inl (hcases _ hzom (by simp))
  · intro hzom
    obtain hsame | ⟨hold, -⟩ := hstate
    · exact .inl (hsame.trans hzom)
    · rw [hzom] at hold
      simp [ProcState.Alive] at hold
  · intro hst hne
    rw [hparent]
    exact h.hasParent z (hst.imp halive fun hzom => hcases _ hzom (by simp)) hne
  · intro q hq
    obtain ⟨hused, -⟩ := h.child q z hq
    refine ⟨?_, hparent⟩
    obtain hsame | ⟨hold, -⟩ := hstate
    · exact hsame.trans hused
    · rw [hused] at hold
      simp [ProcState.Alive] at hold
  · rintro (⟨hs, hchan⟩ | hset)
    · exact .inl ⟨hcases _ hs (by simp), hchan⟩
    · exact .inr hset

/-- Only a lock of a process changes hands. -/
theorem Family.setLocked {locked : Option Nat} (hz : z < NPROC)
    (hself : (s.slot z).pc.holdsSelf → locked = some z) : Family (s.setLocked z locked) := by
  have hslot := h.slots z
  exact h.setSlot ⟨hz, ⟨hslot.holder, hself, hslot.state, hslot.chan, hslot.blank, hslot.exiting⟩,
    .inl rfl, .inl, .inl, .inl, .inl rfl, h.hasParent z, fun q hq => ⟨(h.child q z hq).1, rfl⟩, id,
    id⟩

/-- `freeproc` of a slot that holds no living process. -/
theorem Family.freed (hz : z < NPROC)
    (hstate : s.state z = .UNUSED ∨ s.state z = .USED ∨ s.state z = .ZOMBIE ∧ s.waitLock = none)
    (hself : ¬ (s.slot z).pc.holdsSelf) (howned : ∀ q, (s.slot q).pc.child ≠ some z) :
    Family (s.setSlot z (s.slot z).freed) := by
  have hslot := h.slots z
  have hdead : ¬ (s.state z).Alive := by
    obtain hs | hs | ⟨hs, -⟩ := hstate <;> rw [hs] <;> simp [ProcState.Alive]
  obtain ⟨r, hpc⟩ : ∃ r, (s.slot z).pc = .user r := by
    have hok : (s.slot z).pc.StateOk (s.state z) := hslot.state
    obtain hs | hs | ⟨hs, -⟩ := hstate <;> rw [hs] at hok <;> revert hok hself <;>
      cases (s.slot z).pc <;> simp [CallPc.StateOk, CallPc.holdsSelf]
  refine h.setSlot ⟨hz, ⟨hslot.holder, fun hs => absurd hs hself, ?_, ?_, ?_, hslot.exiting⟩, .inl rfl,
    fun ha => absurd ha hdead, ?_, ?_, .inr rfl, ?_, fun q hq => absurd hq (howned q), ?_, id⟩
  · change (s.slot z).pc.StateOk .UNUSED
    rw [hpc]
    simp [CallPc.StateOk]
  · rintro ⟨⟩
  · exact fun _ => ⟨rfl, rfl, rfl, rfl, rfl, rfl⟩
  · rintro ⟨⟩
  · intro hzom
    obtain hs | hs | ⟨-, hlock⟩ := hstate
    · cases hzom.symm.trans hs
    · cases hzom.symm.trans hs
    · exact .inr hlock
  · rintro ((hs | hs | hs) | hs) <;> cases hs
  · rintro (⟨hs, -⟩ | ⟨addr, hset⟩)
    · cases hs
    · cases hpc.symm.trans hset

end

section Steps

variable {input : Option (Nat × Nat)} {c j : Nat}

theorem ne_of_running (hrun : s.state p = .RUNNING) (hc : s.state c ≠ .RUNNING) : c ≠ p :=
  fun heq => hc (heq ▸ hrun)

theorem Family.unowned (h : Family s) (hc : s.state c ≠ .USED) (q : Nat) :
    (s.slot q).pc.child ≠ some c := fun hq => hc (h.child q c hq).1

theorem Family.child_lt (h : Family s) (hc : (s.slot p).pc.child = some c) : c < NPROC := by
  by_contra hge
  cases (h.bound c (by omega)).symm.trans (h.child p c hc).1

theorem Family.pc_idle (h : Family s) (hc : s.state c = .UNUSED ∨ s.state c = .USED) :
    ∃ r, (s.slot c).pc = .user r := by
  have hok : (s.slot c).pc.StateOk (s.state c) := (h.slots c).state
  obtain hs | hs := hc <;> rw [hs] at hok <;> revert hok <;>
    cases (s.slot c).pc <;> simp [CallPc.StateOk]

/-- `freeproc` of a slot by a process that goes on at `pc`. -/
theorem Family.goto_freed (hmove : Family (s.goto p pc)) (hne : j ≠ p) (hj : j < NPROC)
    (hstate : s.state j = .UNUSED ∨ s.state j = .USED ∨ s.state j = .ZOMBIE ∧ s.waitLock = none)
    (hself : ¬ (s.slot j).pc.holdsSelf)
    (hfree : ∀ q, ((s.goto p pc).slot q).pc.child ≠ some j) :
    Family ((s.goto p pc).setSlot j (s.slot j).freed) := by
  have hslot : (s.goto p pc).slot j = s.slot j := slot_goto_of_ne hne
  rw [← hslot]
  refine hmove.freed hj ?_ (by rwa [hslot]) hfree
  rw [state, hslot]
  exact hstate

section

variable (h : Family s) (hrun : s.state p = .RUNNING)
include h hrun

theorem Family.allocFound {index : Nat} (hpc : (s.slot p).pc = .forkScan index) (hj : j < NPROC)
    (hunused : s.state j = .UNUSED) (hstep : s.allocFound p j input = some s') : Family s' := by
  have hne : j ≠ p := ne_of_running hrun (by rw [hunused]; simp)
  obtain ⟨r, hjpc⟩ := h.pc_idle (.inl hunused)
  have hself : ¬ (s.slot j).pc.holdsSelf := by rw [hjpc]; exact id
  have hfree : ∀ q, (s.slot q).pc.child ≠ some j := h.unowned (by rw [hunused]; simp)
  have halloc : Family s.allocpid := h.of_eq rfl rfl rfl
  have hfork : ¬ (s.slot p).pc.holdsWait := by rw [hpc]; exact id
  cases input with
  | none =>
    obtain rfl := some.inj hstep
    have hmove : Family (s.allocpid.goto p (.user (-1))) := halloc.plain hrun hfork id id rfl (by rintro ⟨⟩)
    refine hmove.goto_freed hne hj (.inl hunused) hself fun q hq => ?_
    by_cases hqp : q = p
    · subst hqp
      rw [pc_goto_self] at hq
      cases hq
    · rw [slot_goto_of_ne hqp] at hq
      exact hfree q hq
  | some pages =>
    simp only [Table.allocFound] at hstep
    split at hstep
    · cases hstep
    obtain rfl := some.inj hstep
    have hslot := h.slots j
    have hblank := hslot.blank hunused
    have hused : Family (s.allocpid.setSlot j { s.slot j with
        proc := allocated (s.slot j).proc s.nextpid pages.1 pages.2
        locked := some p }) := by
      refine halloc.setSlot ⟨hj, ⟨hslot.holder, fun hs => absurd hs hself, ?_, ?_, ?_,
        hslot.exiting⟩, .inl rfl, ?_, ?_, ?_, .inl rfl, ?_, fun q hq => absurd hq (hfree q), ?_, id⟩
      · change (s.slot j).pc.StateOk .USED
        rw [hjpc]
        simp [CallPc.StateOk]
      · rintro ⟨⟩
      · rintro ⟨⟩
      · intro hs
        change (s.state j).Alive at hs
        rw [hunused] at hs
        simp [ProcState.Alive] at hs
      · rintro ⟨⟩
      · exact fun hs => by cases hunused.symm.trans hs
      · rintro ((hs | hs | hs) | hs) <;> cases hs
      · rintro (⟨hs, -⟩ | ⟨addr, hset⟩)
        · cases hs
        · cases hjpc.symm.trans hset
    refine hused.own ?_ ?_ id id ?_ (by rintro ⟨⟩)
    · rw [state, slot_setSlot_of_ne hne.symm]
      exact hrun
    · rw [slot_setSlot_of_ne hne.symm]
      exact hfork
    · rintro c hc
      cases hc
      rw [state, Table.parent, slot_setSlot_self]
      refine ⟨rfl, hblank.parent, fun q hqp hq => ?_⟩
      by_cases hqj : q = j
      · subst hqj
        rw [slot_setSlot_self] at hq
        exact hfree q hq
      · rw [slot_setSlot_of_ne hqj] at hq
        exact hfree q hq

theorem Family.forkCopied (hpc : (s.slot p).pc = .forkCopy c) :
    Family (s.forkCopied p c input) := by
  have hc : (s.slot p).pc.child = some c := by rw [hpc]; rfl
  obtain ⟨hused, hparent⟩ := h.child p c hc
  rw [hpc] at hparent
  have hne : c ≠ p := ne_of_running hrun (by rw [hused]; simp)
  obtain ⟨r, hcpc⟩ := h.pc_idle (.inr hused)
  have hself : ¬ (s.slot c).pc.holdsSelf := by rw [hcpc]; exact id
  have hfork : ¬ (s.slot p).pc.holdsWait := by rw [hpc]; exact id
  cases input with
  | none =>
    have hmove : Family (s.goto p (.user (-1))) := h.plain hrun hfork id id rfl nofun
    exact hmove.goto_freed hne (h.child_lt hc) (.inr (.inl hused)) hself (h.not_child hc rfl)
  | some pages =>
    have hslot := h.slots c
    have hcopy : Family (s.setSlot c { s.slot c with
        proc := inherit (s.slot c).proc (s.slot p).proc
        locked := none }) := by
      refine h.setSlot ⟨h.child_lt hc, ⟨hslot.holder, fun hs => absurd hs hself, hslot.state,
        hslot.chan, ?_, hslot.exiting⟩, .inl rfl, .inl, .inl, .inl, .inl rfl, h.hasParent c,
        fun q hq => ⟨hused, rfl⟩, id, id⟩
      exact fun hs => by cases hused.symm.trans hs
    refine hcopy.own ?_ ?_ id id ?_ nofun
    · rw [state, slot_setSlot_of_ne hne.symm]
      exact hrun
    · rw [slot_setSlot_of_ne hne.symm]
      exact hfork
    · rintro c' hc'
      cases hc'
      rw [state, Table.parent, slot_setSlot_self]
      refine ⟨hused, hparent, fun q hqp hq => hqp ?_⟩
      by_cases hqc : q = c
      · subst hqc
        rw [slot_setSlot_self, hcpc] at hq
        cases hq
      · rw [slot_setSlot_of_ne hqc] at hq
        exact h.childInj q p c hq hc

/-- `np->parent = p` under `wait_lock`. -/
theorem Family.forkParent (hpc : (s.slot p).pc = .forkParent c pid) (hlock : s.waitLock = none) :
    Family ((s.setProc c fun np => { np with parent := some p }).goto p (.forkRun c pid)) := by
  have hc : (s.slot p).pc.child = some c := by rw [hpc]; rfl
  obtain ⟨hused, -⟩ := h.child p c hc
  have hne : c ≠ p := ne_of_running hrun (by rw [hused]; simp)
  have hfork : ¬ (s.slot p).pc.holdsWait := by rw [hpc]; exact id
  have hinit : c ≠ s.initproc := by
    rintro rfl
    have := h.initAlive
    rw [hused] at this
    simp [ProcState.Alive] at this
  -- the child is let go, gets its parent, and is taken up again
  have hmove : Family (s.goto p (.user 0)) := h.plain hrun hfork id id rfl (by rintro ⟨⟩)
  have hstate : ∀ q, (s.goto p (.user 0)).state q = s.state q := by
    intro q
    rw [state, proc_goto]
    rfl
  have hadopt : Family ((s.goto p (.user 0)).adopt c p) := by
    refine hmove.adopt hinit hne.symm ?_ ?_ (h.not_child hc rfl) ?_ ?_
    · rw [hstate, hrun]
      simp [ProcState.Alive]
    · rw [hstate, hused]
      simp
    · intro q hq
      cases hlock.symm.trans hq
    · intro hzom
      rw [hstate, hused] at hzom
      cases hzom
  have hslot : (s.goto p (.user 0)).slot c = s.slot c := slot_goto_of_ne hne
  have heq : ((s.goto p (.user 0)).adopt c p).goto p (.forkRun c pid) =
      (s.setProc c fun np => { np with parent := some p }).goto p (.forkRun c pid) := by
    rw [Table.adopt, Table.setProc, hslot]
    exact goto_setSlot_goto hne
  rw [← heq]
  refine hadopt.own ?_ ?_ id id ?_ (by rintro ⟨⟩)
  · rw [adopt_state, hstate]
    exact hrun
  · rw [adopt_pc, pc_goto_self]
    exact id
  · rintro c' hc'
    cases hc'
    rw [adopt_state, adopt_parent_self, hstate]
    refine ⟨hused, rfl, fun q _ hq => ?_⟩
    rw [adopt_pc] at hq
    exact h.not_child hc rfl q hq

theorem Family.forkRun (hpc : (s.slot p).pc = .forkRun c pid) :
    Family ((s.goto p (.user pid)).setProc c fun np => { np with state := .RUNNABLE }) := by
  have hc : (s.slot p).pc.child = some c := by rw [hpc]; rfl
  obtain ⟨hused, hparent⟩ := h.child p c hc
  rw [hpc] at hparent
  have hne : c ≠ p := ne_of_running hrun (by rw [hused]; simp)
  obtain ⟨r, hcpc⟩ := h.pc_idle (.inr hused)
  have hfork : ¬ (s.slot p).pc.holdsWait := by rw [hpc]; exact id
  have hmove : Family (s.goto p (.user pid)) := h.plain hrun hfork id id rfl (by rintro ⟨⟩)
  have hslot := hmove.slots c
  have heq : (s.goto p (.user pid)).slot c = s.slot c := slot_goto_of_ne hne
  rw [Table.setProc]
  rw [heq] at hslot ⊢
  refine hmove.setSlot ⟨h.child_lt hc, ⟨hslot.holder, hslot.self, ?_, ?_, ?_, hslot.exiting⟩,
    .inl (by rw [heq]), ?_, ?_, ?_, .inl ?_, ?_, ?_, ?_, (by rw [heq]; exact id)⟩
  · rw [hcpc]
    simp [CallPc.StateOk]
  · rintro ⟨⟩
  · rintro ⟨⟩
  · exact fun _ => .inl (.inl rfl)
  · rintro ⟨⟩
  · intro hs
    rw [state, heq] at hs
    cases hused.symm.trans hs
  · rw [Table.parent, heq]
  · intro _ _ hnone
    cases hparent.symm.trans hnone
  · exact fun q hq => absurd hq (h.not_child hc rfl q)
  · rintro (⟨hs, -⟩ | ⟨addr, hset⟩)
    · cases hs
    · cases hcpc.symm.trans hset

end

end Steps

section ExitSteps

variable {status : Int} {c index : Nat}

/-- One round of the loop of `reparent`: the child goes to init, which is woken next. -/
theorem Family.reparent (h : Family s) (hpc : (s.slot p).pc = .reparent status index)
    (hparent : s.parent index = some p) :
    Family ((s.setProc index fun pp => { pp with parent := some s.initproc }).goto p
      (.wakeup (some s.initproc) 0 (.reparent status (index + 1)))) := by
  have hholds : (s.slot p).pc.holdsWait := by rw [hpc]; trivial
  have hexit : p ≠ s.initproc := (h.slots p).exiting (by rw [hpc]; trivial)
  have hlock : s.waitLock = some p := (h.slots p).holder.mp hholds
  have hfacts := h.facts p
  rw [hpc] at hfacts
  have hne : index ≠ p := (h.parentAlive index p hparent).2.symm
  have hinit : index ≠ s.initproc := by
    rintro rfl
    cases h.initParent.symm.trans hparent
  have hmove : Family (s.goto p (.wakeup (some s.initproc) 0 (.reparent status index))) :=
    h.held hholds trivial (by rintro ⟨⟩) (fun _ => hexit) hfacts
      (fun w _ _ hwake => by rw [hpc] at hwake; exact absurd hwake id)
  have hstate : ∀ q, (s.goto p (.wakeup (some s.initproc) 0 (.reparent status index))).state q =
      s.state q := by
    intro q
    rw [state, proc_goto]
    rfl
  have hpar : ∀ q, (s.goto p (.wakeup (some s.initproc) 0 (.reparent status index))).parent q =
      s.parent q := by
    intro q
    rw [Table.parent, proc_goto]
    rfl
  have horphaned : ∀ q, q < index + 1 →
      ((s.goto p (.wakeup (some s.initproc) 0 (.reparent status index))).adopt index
        s.initproc).parent q ≠ some p := by
    intro q hq
    by_cases hqi : q = index
    · subst hqi
      rw [adopt_parent_self]
      exact fun heq => hexit (some.inj heq).symm
    · rw [adopt_parent_of_ne hqi, hpar]
      exact hfacts q (by omega)
  have hadopt : Family ((s.goto p (.wakeup (some s.initproc) 0 (.reparent status index))).adopt index
      s.initproc) := by
    refine hmove.adopt hinit hinit.symm ?_ ?_ ?_ ?_ ?_
    · rw [hstate]
      exact h.initAlive
    · rw [hstate]
      intro hunused
      cases hparent.symm.trans ((h.slots index).blank hunused).parent
    · intro q hq
      by_cases hqp : q = p
      · subst hqp
        rw [pc_goto_self] at hq
        cases hq
      · rw [slot_goto_of_ne hqp] at hq
        have hown := (h.child q index hq).2
        rw [hparent] at hown
        revert hown
        cases (s.slot q).pc <;> simp [CallPc.childParent]
        exact fun heq => hqp heq.symm
    · intro q hq
      obtain rfl : p = q := some.inj (hlock.symm.trans hq)
      rw [pc_goto_self]
      exact fun q hq => horphaned q (by omega)
    · exact fun _ _ => ⟨p, hlock, by rw [pc_goto_self]; exact ⟨rfl, Nat.zero_le _⟩⟩
  have hslot : (s.goto p (.wakeup (some s.initproc) 0 (.reparent status index))).slot index =
      s.slot index := slot_goto_of_ne hne
  have heq : ((s.goto p (.wakeup (some s.initproc) 0 (.reparent status index))).adopt index
      s.initproc).goto p (.wakeup (some s.initproc) 0 (.reparent status (index + 1))) =
      (s.setProc index fun pp => { pp with parent := some s.initproc }).goto p
        (.wakeup (some s.initproc) 0 (.reparent status (index + 1))) := by
    rw [Table.adopt, Table.setProc, hslot]
    exact goto_setSlot_goto hne
  rw [← heq]
  refine hadopt.held ?_ trivial (by rintro ⟨⟩) (fun _ => hexit) horphaned ?_
  · rw [adopt_pc, pc_goto_self]
    trivial
  · intro w _ _ hwake
    rw [adopt_pc, pc_goto_self] at hwake
    exact hwake

/-- What `wakeup` keeps true of the slots it has passed. -/
theorem Facts.wakeup_succ (h : s.Facts p (.wakeup chan index after))
    (hwoken : chan = some index → ¬ s.Waits index) :
    s.Facts p (.wakeup chan (index + 1) after) := by
  cases after with
  | reparent status i => exact h
  | exitLock status =>
    obtain ⟨ho, hchan, hpassed⟩ := h
    refine ⟨ho, hchan, fun w hw hlt => ?_⟩
    by_cases hwi : w = index
    · subst hwi
      exact hwoken (hchan.trans hw)
    · exact hpassed w hw (by omega)

section

variable (h : Family s) (hpc : (s.slot p).pc = .wakeup chan index after)
include h hpc

theorem Family.wakeup_succ (hwoken : chan = some index → ¬ s.Waits index) :
    Family (s.goto p (.wakeup chan (index + 1) after)) := by
  have hfacts := h.facts p
  rw [hpc] at hfacts
  refine h.held (by rw [hpc]; trivial) trivial nofun
    (fun _ => (h.slots p).exiting (by rw [hpc]; trivial)) (hfacts.wakeup_succ hwoken) ?_
  intro w _ hwaits hwake
  rw [hpc] at hwake
  obtain ⟨hchan, hle⟩ := hwake
  refine ⟨hchan, Nat.succ_le_of_lt (lt_of_le_of_ne hle ?_)⟩
  rintro rfl
  exact hwoken hchan hwaits

theorem Family.wakeup_end (hend : ¬ index < NPROC) : Family (s.goto p after.pc) := by
  have hfacts := h.facts p
  rw [hpc] at hfacts
  have hholds : (s.slot p).pc.holdsWait := by rw [hpc]; trivial
  have hexit := (h.slots p).exiting (by rw [hpc]; trivial)
  have hduty : ∀ w, w < NPROC → s.Waits w → WillWake w (s.slot p).pc → WillWake w after.pc := by
    intro w hw _ hwake
    rw [hpc] at hwake
    exact absurd hwake.2 (by omega)
  cases after with
  | reparent status i =>
    exact h.held hholds trivial nofun (fun _ => hexit) hfacts hduty
  | exitLock status =>
    obtain ⟨ho, -, hpassed⟩ := hfacts
    refine h.held hholds trivial nofun (fun _ => hexit) ⟨ho, ?_⟩ hduty
    exact fun w hw => hpassed w hw (lt_of_lt_of_le (h.lt_of_parent hw).1 (by omega))

end

theorem Family.exitZombie (h : Family s) (hpc : (s.slot p).pc = .exitZombie status)
    (hp : p < NPROC) (exit : Int × Int) :
    Family ((((s.setWait none).noteExited exit).goto p .exitSched).setProc p
      fun pp => { pp with xstate := status, state := .ZOMBIE }) := by
  have hslot := h.slots p
  have hholds : (s.slot p).pc.holdsWait := by rw [hpc]; trivial
  have hrun : s.state p = .RUNNING := hslot.state.running_of_holdsWait hholds
  have hexit : p ≠ s.initproc := hslot.exiting (by rw [hpc]; trivial)
  have hfacts := h.facts p
  rw [hpc] at hfacts
  obtain ⟨horphaned, hawake⟩ := hfacts
  have hmove : Family ((s.setWait none).goto p .exitSched) :=
    h.release hholds id (fun _ => hslot.self (by rw [hpc]; trivial)) rfl (fun _ => hexit)
      (by rintro _ ⟨⟩) (fun w hwake => by rw [hpc] at hwake; exact hwake)
  have hnote : Family (((s.setWait none).noteExited exit).goto p .exitSched) :=
    hmove.of_eq rfl rfl rfl
  have hself : (((s.setWait none).noteExited exit).goto p .exitSched).slot p =
      { s.slot p with pc := .exitSched } := slot_setSlot_self _ _ _
  have hok := hnote.slots p
  rw [Table.setProc]
  rw [hself] at hok ⊢
  refine hnote.setSlot ⟨hp, ⟨hok.holder, hok.self, .inr rfl, ?_, ?_, hok.exiting⟩,
    .inl (by rw [hself]), ?_, ?_, ?_, .inl (by rw [Table.parent, hself]), ?_, ?_, ?_,
    (by rw [hself]; exact id)⟩
  · rintro ⟨⟩
  · rintro ⟨⟩
  · refine fun _ => .inr ⟨fun q hq => ?_, hexit⟩
    rw [Table.parent, proc_goto] at hq
    exact horphaned q (h.lt_of_parent hq).2 hq
  · refine fun _ => .inr ⟨rfl, fun w hw hwaits => ?_⟩
    refine hawake w hw ?_
    have hwp : w ≠ p := (h.parentAlive p w hw).2
    rwa [Waits, slot_goto_of_ne hwp] at hwaits
  · exact fun _ => .inl rfl
  · exact fun _ => h.hasParent p (.inl (hrun ▸ .inr (.inl rfl)))
  · intro q hq
    refine absurd hq (hnote.unowned ?_ q)
    rw [state, hself]
    change s.state p ≠ .USED
    rw [hrun]
    simp
  · rintro (⟨hs, -⟩ | ⟨addr, hset⟩)
    · cases hs
    · cases hset

end ExitSteps

section WaitSteps

variable {addr c index : Nat} {input : Option (Nat × Nat)}

section

variable (h : Family s)
include h

theorem Family.waitScan_succ {kids : Bool} (hpc : (s.slot p).pc = .waitScan addr index havekids)
    (hindex : s.parent index = some p → s.state index ≠ .ZOMBIE) :
    Family (s.goto p (.waitScan addr (index + 1) kids)) := by
  have hfacts := h.facts p
  rw [hpc] at hfacts
  refine h.held (by rw [hpc]; trivial) trivial nofun nofun ?_
    (fun w _ _ hwake => by rw [hpc] at hwake; exact hwake)
  intro z hz
  by_cases hzi : z = index
  · subst hzi
    exact hindex
  · exact hfacts z (by omega)

theorem Family.waitFound (hpc : (s.slot p).pc = .waitScan addr index havekids)
    (hindex : index < NPROC) (hparent : s.parent index = some p)
    (hzombie : s.state index = .ZOMBIE) (hfree : (s.slot index).locked = none) :
    Family ((s.setLocked index (some p)).goto p (.waitFound addr index)) := by
  have hne : index ≠ p := (h.parentAlive index p hparent).2.symm
  have hself : ¬ (s.slot index).pc.holdsSelf := by
    intro hs
    cases hfree.symm.trans ((h.slots index).self hs)
  have hlocked : Family (s.setLocked index (some p)) := h.setLocked hindex fun hs => absurd hs hself
  have hslot : (s.setLocked index (some p)).slot p = s.slot p := slot_setSlot_of_ne hne.symm
  refine hlocked.held ?_ trivial nofun nofun ?_ ?_
  · rw [hslot, hpc]
    trivial
  · have hindex : (s.setLocked index (some p)).slot index =
        { s.slot index with locked := some p } := slot_setSlot_self _ _ _
    refine ⟨?_, ?_, ?_⟩
    · rw [state, hindex]
      exact hzombie
    · rw [Table.parent, hindex]
      exact hparent
    · rw [hindex]
      exact hself
  · intro w _ _ hwake
    rw [hslot, hpc] at hwake
    exact hwake

theorem Family.reap (hpc : (s.slot p).pc = .waitFound addr c) : Family (s.reap p addr c input) := by
  have hfacts := h.facts p
  rw [hpc] at hfacts
  obtain ⟨hzombie, hparent, hself⟩ := hfacts
  have hne : c ≠ p := (h.parentAlive c p hparent).2.symm
  have hc : c < NPROC := (h.lt_of_parent hparent).2
  have hmove : ∀ r, Family ((s.setWait none).goto p (.user r)) := fun r =>
    h.release (by rw [hpc]; trivial) id nofun rfl nofun
      nofun (fun w hwake => by rw [hpc] at hwake; exact hwake)
  rw [Table.reap]
  split
  · refine (hmove (-1)).setLocked hc ?_
    rw [slot_goto_of_ne hne]
    exact fun hs => absurd hs hself
  · have hnote : Family (((s.setWait none).noteReaped
        ⟨p, (s.slot c).proc.pid, (s.slot c).proc.xstate⟩).goto p (.user (s.slot c).proc.pid)) :=
      (hmove _).of_eq rfl rfl rfl
    refine hnote.goto_freed hne hc (.inr (.inr ⟨hzombie, rfl⟩)) hself fun q hq => ?_
    have hold : (s.slot q).pc.child = some c := by
      by_cases hqp : q = p
      · subst hqp
        rw [pc_goto_self] at hq
        cases hq
      · rwa [slot_goto_of_ne hqp] at hq
    cases hzombie.symm.trans (h.child q c hold).1

theorem Family.sleepSet (hp : p < NPROC) (hrun : s.state p = .RUNNING)
    (hpc : (s.slot p).pc = .sleepSet addr) :
    Family (s.setSlot p
      { s.slot p with
        proc := { (s.slot p).proc with state := .SLEEPING }
        chan := some p
        locked := none
        pc := .asleep addr }) := by
  have hslot := h.slots p
  have hlock : s.waitLock ≠ some p := fun hl => by
    have hholds := hslot.holder.mpr hl
    rw [hpc] at hholds
    exact hholds
  refine h.setSlot ⟨hp, ⟨⟨nofun, fun hl => absurd hl hlock⟩,
    nofun, .inl rfl, fun _ => rfl, ?_, nofun⟩, .inr ⟨id, rfl⟩,
    fun _ => .inl (.inr (.inr rfl)), ?_, ?_, .inl rfl, ?_, ?_, fun _ => .inr ⟨addr, hpc⟩, nofun⟩
  · exact nofun
  · exact nofun
  · exact fun hs => by cases hrun.symm.trans hs
  · exact fun _ => h.hasParent p (.inl (hrun ▸ .inr (.inl rfl)))
  · exact fun q hq => absurd hq (h.unowned (by rw [hrun]; simp) q)

/-- A process that has slept goes back to the head of the loop. -/
theorem Family.woken (hp : p < NPROC) (hrun : s.state p = .RUNNING)
    (hpc : (s.slot p).pc = .asleep addr) :
    Family (s.setSlot p { s.slot p with chan := none, pc := .waitEnter addr }) := by
  have hslot := h.slots p
  have hlock : s.waitLock ≠ some p := fun hl => by
    have hholds := hslot.holder.mpr hl
    rw [hpc] at hholds
    exact hholds
  refine h.setSlot ⟨hp, ⟨⟨nofun, fun hl => absurd hl hlock⟩,
    nofun, .inl hrun, ?_, hslot.blank, nofun⟩, .inr ⟨id, rfl⟩,
    .inl, .inl, .inl, .inl rfl, h.hasParent p, ?_, ?_, nofun⟩
  · exact fun hs => by cases hrun.symm.trans hs
  · exact fun q hq => absurd hq (h.unowned (by rw [hrun]; simp) q)
  · rintro (⟨hs, -⟩ | ⟨addr', hset⟩)
    · cases hrun.symm.trans hs
    · cases hset

end

end WaitSteps

theorem pc_setProc (s : Table) (c q : Nat) (f : Proc → Proc) :
    ((s.setProc c f).slot q).pc = (s.slot q).pc := by
  by_cases hq : q = c
  · subst hq
    rw [Table.setProc, slot_setSlot_self]
  · rw [slot_setProc_of_ne hq]

/-- Killing a process keeps the invariant, also on a slot that is free. -/
theorem Family.kill {c : Nat} (h : Family s) (hc : c < NPROC) : Family (s.setProc c Proc.kill) := by
  have hok : (s.slot c).pc.StateOk (s.state c) := (h.slots c).state
  have hkill : (s.slot c).proc.kill.state = if s.state c = .SLEEPING then .RUNNABLE else s.state c :=
    rfl
  refine h.setProc hc rfl ?_ ?_ fun hu => ?_
  · rw [hkill]
    split
    case isTrue hs => exact .inr ⟨hs ▸ .inr (.inr rfl), .inl rfl⟩
    case isFalse => exact .inl rfl
  · rw [hkill]
    split
    case isTrue hs =>
      rw [hs] at hok
      revert hok
      cases (s.slot c).pc <;> simp [CallPc.StateOk]
    case isFalse => exact hok
  · have hblank := (h.slots c).blank hu
    exact ⟨hblank.pid, hblank.sz, hblank.pagetable, hblank.trapframe, hblank.parent,
      hblank.hasRegion⟩

/-- Every step of a running process keeps the invariant. -/
theorem Family.step {input : Option (Nat × Nat)} (h : Family s) (hp : p < NPROC)
    (hrun : s.state p = .RUNNING) (hstep : s.step p input = some s') : Family s' := by
  have hslot := h.slots p
  have hfacts := h.facts p
  cases hpc : (s.slot p).pc
  all_goals simp only [Table.step, hpc] at hstep
  all_goals rw [hpc] at hfacts
  case user r => cases hstep
  case forkScan index =>
    split at hstep
    · split at hstep
      · cases hstep
      split at hstep
      case isTrue hindex _ hunused => exact h.allocFound hrun hpc hindex hunused hstep
      case isFalse =>
        obtain rfl := some.inj hstep
        exact h.plain hrun (by rw [hpc]; exact id) id id rfl (by rintro ⟨⟩)
    · obtain rfl := some.inj hstep
      exact h.plain hrun (by rw [hpc]; exact id) id id rfl (by rintro ⟨⟩)
  case forkCopy c => exact some.inj hstep ▸ h.forkCopied hrun hpc
  case forkParent c pid =>
    obtain ⟨hlock, hstep⟩ := ite_none_left_eq_some.mp hstep
    exact some.inj hstep ▸ h.forkParent hrun hpc (not_not.mp hlock)
  case forkRun c pid =>
    obtain ⟨-, hstep⟩ := ite_none_left_eq_some.mp hstep
    exact some.inj hstep ▸ h.forkRun hrun hpc
  case exitWait status =>
    obtain ⟨hlock, hstep⟩ := ite_none_left_eq_some.mp hstep
    obtain rfl := some.inj hstep
    exact h.acquire hrun (not_not.mp hlock) trivial id
      (fun _ => hslot.exiting (by rw [hpc]; trivial)) (fun q hq => absurd hq (Nat.not_lt_zero q))
  case reparent status index =>
    have hexit : p ≠ s.initproc := hslot.exiting (by rw [hpc]; trivial)
    have hduty : ∀ pc w, w < NPROC → s.Waits w → WillWake w (s.slot p).pc → WillWake w pc :=
      fun pc w _ _ hwake => by rw [hpc] at hwake; exact absurd hwake id
    split at hstep
    · split at hstep
      case isTrue hparent => exact some.inj hstep ▸ h.reparent hpc hparent
      case isFalse hparent =>
        obtain rfl := some.inj hstep
        refine h.held (by rw [hpc]; trivial) trivial (by rintro ⟨⟩) (fun _ => hexit) ?_ (hduty _)
        intro q hq
        by_cases hqi : q = index
        · subst hqi
          exact hparent
        · exact hfacts q (by omega)
    case isFalse hend =>
      obtain rfl := some.inj hstep
      refine h.held (by rw [hpc]; trivial) trivial (by rintro ⟨⟩) (fun _ => hexit) ?_ (hduty _)
      exact ⟨fun q hq => hfacts q (by omega), rfl, fun w _ hw => absurd hw (Nat.not_lt_zero w)⟩
  case wakeup chan index after =>
    split at hstep
    · split at hstep
      case isTrue hself =>
        obtain rfl := some.inj hstep
        refine h.wakeup_succ hpc fun _ hwaits => ?_
        rw [hself] at hwaits
        obtain ⟨hs, -⟩ | ⟨addr, hset⟩ := hwaits
        · cases hrun.symm.trans hs
        · cases hpc.symm.trans hset
      case isFalse hindex hne =>
        obtain ⟨hfree, hstep⟩ := ite_none_left_eq_some.mp hstep
        have hset : ∀ addr, (s.slot index).pc ≠ .sleepSet addr := by
          intro addr hset
          have hself := (h.slots index).self (by rw [hset]; trivial)
          exact hfree (by rw [hself]; simp)
        split at hstep
        case isTrue hasleep =>
          obtain rfl := some.inj hstep
          have hok : (s.slot index).pc.StateOk .RUNNABLE := by
            have hold : (s.slot index).pc.StateOk (s.state index) := (h.slots index).state
            rw [show s.state index = .SLEEPING from hasleep.1] at hold
            revert hold
            cases (s.slot index).pc <;> simp [CallPc.StateOk]
          have hwake : Family (s.setProc index fun pp => { pp with state := .RUNNABLE }) :=
            h.setProc hindex rfl (.inr ⟨.inr (.inr hasleep.1), .inl rfl⟩) hok
              (fun hu => by cases hasleep.1.symm.trans hu)
          refine hwake.wakeup_succ ?_ fun _ hwaits => ?_
          · rw [slot_setProc_of_ne (Ne.symm hne)]
            exact hpc
          · rw [Waits, Table.setProc, slot_setSlot_self] at hwaits
            obtain ⟨hs, -⟩ | ⟨addr, hpcs⟩ := hwaits
            · cases hs
            · exact hset addr hpcs
        case isFalse hawake =>
          obtain rfl := some.inj hstep
          refine h.wakeup_succ hpc fun hchan hwaits => ?_
          obtain ⟨hs, hc⟩ | ⟨addr, hpcs⟩ := hwaits
          · exact hawake ⟨hs, hc.trans hchan.symm⟩
          · exact hset addr hpcs
    case isFalse hend => exact some.inj hstep ▸ h.wakeup_end hpc hend
  case exitLock status =>
    obtain ⟨-, hstep⟩ := ite_none_left_eq_some.mp hstep
    obtain rfl := some.inj hstep
    have hlocked : Family (s.setLocked p (some p)) := h.setLocked hp fun _ => rfl
    have hself : (s.setLocked p (some p)).slot p = { s.slot p with locked := some p } :=
      slot_setSlot_self _ _ _
    have hf := hlocked.facts p
    refine hlocked.held (by rw [hself, hpc]; trivial) trivial (fun _ => by rw [hself]) ?_ ?_ ?_
    · exact fun _ => hslot.exiting (by rw [hpc]; trivial)
    · rw [hself, hpc] at hf
      exact hf
    · intro w _ _ hwake
      rw [hself, hpc] at hwake
      exact hwake
  case exitZombie status => exact some.inj hstep ▸ h.exitZombie hpc hp _
  case exitSched => cases hstep
  case waitEnter addr =>
    obtain ⟨hlock, hstep⟩ := ite_none_left_eq_some.mp hstep
    obtain rfl := some.inj hstep
    exact h.acquire hrun (not_not.mp hlock) trivial id (by rintro ⟨⟩)
      (fun z hz => absurd hz (Nat.not_lt_zero z))
  case waitScan addr index havekids =>
    have hdone : ∀ w, ¬ WillWake w (s.slot p).pc := fun w hwake => by rw [hpc] at hwake; exact hwake
    split at hstep
    · split at hstep
      case isTrue hindex hparent =>
        obtain ⟨hfree, hstep⟩ := ite_none_left_eq_some.mp hstep
        split at hstep
        case isTrue hzombie =>
          exact some.inj hstep ▸ h.waitFound hpc hindex hparent hzombie (not_not.mp hfree)
        case isFalse halive => exact some.inj hstep ▸ h.waitScan_succ hpc fun _ => halive
      case isFalse hparent =>
        exact some.inj hstep ▸ h.waitScan_succ hpc fun hp => absurd hp hparent
    case isFalse hend =>
      have hrelease : Family ((s.setWait none).goto p (.user (-1))) :=
        h.release (by rw [hpc]; trivial) id (by rintro ⟨⟩) rfl (by rintro ⟨⟩) (by rintro _ ⟨⟩) hdone
      split at hstep
      · exact some.inj hstep ▸ hrelease
      split at hstep
      · cases hstep
      split at hstep
      · exact some.inj hstep ▸ hrelease
      · obtain rfl := some.inj hstep
        refine h.held (by rw [hpc]; trivial) trivial (by rintro ⟨⟩)
          (by rintro ⟨⟩) ?_ (fun w _ _ hwake => absurd hwake (hdone w))
        exact fun z hz => hfacts z (by omega)
  case waitFound addr c => exact some.inj hstep ▸ h.reap hpc
  case sleepLock addr =>
    obtain ⟨-, hstep⟩ := ite_none_left_eq_some.mp hstep
    obtain rfl := some.inj hstep
    have hlocked : Family (s.setLocked p (some p)) := h.setLocked hp fun _ => rfl
    have hself : (s.setLocked p (some p)).slot p = { s.slot p with locked := some p } :=
      slot_setSlot_self _ _ _
    have hf := hlocked.facts p
    refine hlocked.held (by rw [hself, hpc]; trivial) trivial (fun _ => by rw [hself]) (by rintro ⟨⟩) ?_ ?_
    · rw [hself, hpc] at hf
      exact hf
    · intro w _ _ hwake
      rw [hself, hpc] at hwake
      exact hwake
  case sleepUnlock addr =>
    obtain rfl := some.inj hstep
    exact h.release (by rw [hpc]; trivial) id (fun _ => hslot.self (by rw [hpc]; trivial)) rfl
      (by rintro ⟨⟩) (fun _ _ => hfacts) (fun w hwake => by rw [hpc] at hwake; exact hwake)
  case sleepSet addr => exact some.inj hstep ▸ h.sleepSet hp hrun hpc
  case asleep addr => exact some.inj hstep ▸ h.woken hp hrun hpc
  case kill pid index =>
    have hplain : ∀ r, Family (s.goto p (.user r)) := fun r =>
      h.plain hrun (by rw [hpc]; exact id) id id rfl (by rintro ⟨⟩)
    split at hstep
    · split at hstep
      · cases hstep
      split at hstep
      case isTrue hindex _ _ =>
        obtain rfl := some.inj hstep
        refine (h.kill hindex).plain ?_ ?_ id id rfl (by rintro ⟨⟩)
        · by_cases hpi : p = index
          · subst hpi
            rw [state, Table.setProc, slot_setSlot_self]
            exact (if_neg (by rw [show (s.slot p).proc.state = _ from hrun]; simp)).trans hrun
          · rw [state, slot_setProc_of_ne hpi]
            exact hrun
        · rw [pc_setProc, hpc]
          exact id
      case isFalse =>
        obtain rfl := some.inj hstep
        exact h.plain hrun (by rw [hpc]; exact id) id id rfl (by rintro ⟨⟩)
    · exact some.inj hstep ▸ hplain (-1)

theorem inUser_iff : s.inUser p = true ↔ s.state p = .RUNNING ∧ ∃ r, (s.slot p).pc = .user r := by
  rw [inUser, Bool.and_eq_true, decide_eq_true_iff]
  refine and_congr_right fun _ => ?_
  cases (s.slot p).pc <;> simp

/-- A running process changes its own memory. -/
theorem Family.image (h : Family s) (hp : p < NPROC) (huser : s.inUser p = true)
    (hparent : ∀ pp, (f pp).parent = pp.parent) (hstate : ∀ pp, (f pp).state = pp.state) :
    Family (s.setProc p f) := by
  obtain ⟨hrun, -⟩ := inUser_iff.mp huser
  refine h.setProc hp (hparent _) (.inl (hstate _)) ?_ fun hu => by cases hrun.symm.trans hu
  rw [hstate]
  exact (h.slots p).state

theorem Family.next {e : TableEvent} (h : Family s) (hnext : s.next e = some s') : Family s' := by
  unfold Table.next at hnext
  split at hnext
  case isFalse => cases hnext
  case isTrue hp =>
  have hcall : ∀ p pc, s.inUser p = true → ¬ pc.holdsWait → ¬ pc.holdsSelf → pc.child = none →
      (pc.exiting → p ≠ s.initproc) → Family (s.goto p pc) := by
    intro p pc huser hwait hself hchild hexit
    obtain ⟨hrun, r, hpc⟩ := inUser_iff.mp huser
    exact h.plain hrun (by rw [hpc]; exact id) hwait hself hchild hexit
  cases e with
  | kfork p =>
    dsimp only at hnext
    obtain ⟨_, hnext⟩ := ite_none_right_eq_some.mp hnext
    exact some.inj hnext ▸ hcall p _ ‹_› id id rfl (by rintro ⟨⟩)
  | kexit p status =>
    obtain ⟨hu, hnext⟩ := ite_none_right_eq_some.mp hnext
    exact some.inj hnext ▸ hcall p _ hu.1 id id rfl (fun _ => hu.2)
  | kwait p addr =>
    obtain ⟨_, hnext⟩ := ite_none_right_eq_some.mp hnext
    exact some.inj hnext ▸ hcall p _ ‹_› id id rfl (by rintro ⟨⟩)
  | kkill p pid =>
    dsimp only at hnext
    obtain ⟨_, hnext⟩ := ite_none_right_eq_some.mp hnext
    exact some.inj hnext ▸ hcall p _ ‹_› id id rfl (by rintro ⟨⟩)
  | kexec p sz pagetable =>
    obtain ⟨hu, hnext⟩ := ite_none_right_eq_some.mp hnext
    exact some.inj hnext ▸ h.image hp hu.1 (fun _ => rfl) (fun _ => rfl)
  | sbrk p sz =>
    obtain ⟨_, hnext⟩ := ite_none_right_eq_some.mp hnext
    exact some.inj hnext ▸ h.image hp ‹_› (fun _ => rfl) (fun _ => rfl)
  | mapzero p region =>
    obtain ⟨_, hnext⟩ := ite_none_right_eq_some.mp hnext
    exact some.inj hnext ▸ h.image hp ‹_› (fun _ => rfl) (fun _ => rfl)
  | step p input =>
    dsimp only at hnext
    obtain ⟨_, hnext⟩ := ite_none_right_eq_some.mp hnext
    exact h.step hp ‹_› hnext
  | run p =>
    dsimp only at hnext
    obtain ⟨hrunnable, rfl⟩ := Machine.of_guard hnext
    refine h.setProc hp rfl (.inr ⟨.inl hrunnable.1, .inr rfl⟩)
      (CallPc.stateOk_running _) fun hu => ?_
    cases hrunnable.1.symm.trans hu
  | yield p =>
    dsimp only at hnext
    obtain ⟨hyield, hnext⟩ := ite_none_right_eq_some.mp hnext
    obtain ⟨hrun, hpc, -⟩ := hyield
    obtain rfl := some.inj hnext
    refine h.setProc hp rfl (.inr ⟨.inr (.inl hrun), .inl rfl⟩) ?_ fun hu => ?_
    · revert hpc
      cases (s.slot p).pc <;> simp [CallPc.StateOk, CallPc.interruptible]
    · cases hrun.symm.trans hu
  | swtch p =>
    dsimp only at hnext
    obtain ⟨hpc, rfl⟩ := Machine.of_guard hnext
    have hslot := h.slots p
    have hlock : s.waitLock ≠ some p := fun hl => by
      have hholds := hslot.holder.mpr hl
      rw [hpc] at hholds
      exact hholds
    have hstate : s.state p = .RUNNING ∨ s.state p = .ZOMBIE := by
      have hok := hslot.state
      rw [hpc] at hok
      exact hok
    refine h.setSlot ⟨hp, ⟨⟨by rintro ⟨⟩, fun hl => absurd hl hlock⟩,
      (by rintro ⟨⟩), ?_, hslot.chan, hslot.blank, by rintro ⟨⟩⟩,
      .inr ⟨id, rfl⟩, .inl, .inl, .inl, .inl rfl, h.hasParent p, ?_, ?_, by rintro ⟨⟩⟩
    · change s.state p ≠ .SLEEPING
      obtain hs | hs := hstate <;> rw [hs] <;> simp
    · refine fun q hq => absurd hq (h.unowned ?_ q)
      obtain hs | hs := hstate <;> rw [hs] <;> simp
    · rintro (hs | ⟨addr, hset⟩)
      · exact .inl hs
      · cases hset

theorem Initial.family (h : Initial s) : Family s := by
  obtain ⟨trapframe, pagetable, -, -, rfl⟩ := h
  have hstate : ∀ q, q ≠ 0 → (userinit trapframe pagetable).state q = .UNUSED := by
    intro q hq
    simp [userinit, state, hq, freedProc]
  have hparent : ∀ q, (userinit trapframe pagetable).parent q = none := by
    intro q
    by_cases hq : q = 0 <;> simp [userinit, Table.parent, hq, freedProc, allocated]
  have hinit : (userinit trapframe pagetable).state 0 = .RUNNABLE := rfl
  refine ⟨fun q => ⟨?_, by rintro ⟨⟩, ?_, ?_, ?_, by rintro ⟨⟩⟩, ?_, .inl hinit,
    hparent 0, by rintro _ _ ⟨⟩, (fun p q c hc => by cases hc), ?_, ?_, fun p => trivial, ?_⟩
  · exact ⟨by rintro ⟨⟩, by rintro ⟨⟩⟩
  · change (userinit trapframe pagetable).state q ≠ .SLEEPING
    by_cases hq : q = 0
    · rw [hq, hinit]
      simp
    · rw [hstate q hq]
      simp
  · intro hs
    change (userinit trapframe pagetable).state q = .SLEEPING at hs
    by_cases hq : q = 0
    · rw [hq, hinit] at hs
      cases hs
    · rw [hstate q hq] at hs
      cases hs
  · intro hu
    by_cases hq : q = 0
    · subst hq
      cases hinit.symm.trans hu
    · simp only [userinit, hq, if_false]
      exact ⟨rfl, rfl, rfl, rfl, rfl, rfl⟩
  · intro q hq
    exact hstate q (by rw [NPROC] at hq; omega)
  · intro q w hw
    cases (hparent q).symm.trans hw
  · intro q hq hne
    rw [hstate q hne] at hq
    simp [ProcState.Alive] at hq
  · intro z w _ hw
    cases (hparent z).symm.trans hw

theorem Reachable.family {ok : Table → TableEvent → Prop} (h : Reachable ok s) : Family s :=
  Machine.Reach.invariant (fun _ => Initial.family) (fun _ _ _ hf _ hnext => hf.next hnext) h

end Table

end EAFITos
