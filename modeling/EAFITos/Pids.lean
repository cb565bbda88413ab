/-
Process identifiers: `allocpid` gives each process a number of its own until the counter wraps.
-/
import EAFITos.Family

namespace EAFITos.Table

variable {s s' s1 : Table} {z : Nat} {t : Slot} {e : TableEvent}

def pid (s : Table) (q : Nat) : Int := (s.slot q).proc.pid

/-- The identifiers so far; slots without a process have 0. -/
structure Numbered (s : Table) : Prop where
  nonneg : ∀ q, 0 ≤ s.pid q
  below : ∀ q, s.pid q < s.nextpid
  apart : ∀ q q', s.pid q = s.pid q' → s.pid q ≠ 0 → q = q'

namespace Numbered

/-- A slot keeps its identifier, is cleared, or gets the next one. -/
theorem put (hslot : s1.slot = s.slot) (hnext : s.nextpid ≤ s1.nextpid)
    (ht : t.proc.pid = s.pid z ∨ t.proc.pid = 0 ∨
      t.proc.pid = s.nextpid ∧ s.nextpid < s1.nextpid) (h : Numbered s) :
    Numbered (s1.setSlot z t) := by
  have hpid : ∀ q, (s1.setSlot z t).pid q = s.pid q ∨ (s1.setSlot z t).pid q = 0 ∨
      q = z ∧ (s1.setSlot z t).pid q = s.nextpid ∧ s.nextpid < s1.nextpid := by
    intro q
    by_cases hq : q = z
    · rw [hq, pid, slot_setSlot_self]
      simpa using ht
    · rw [pid, slot_setSlot_of_ne hq, hslot]
      exact .inl rfl
  refine ⟨fun q => ?_, fun q => ?_, fun q q' heq hne => ?_⟩
  all_goals
    have hq := hpid q
    have hnonneg := h.nonneg q
    have hbelow := h.below q
  · omega
  · change _ < s1.nextpid
    omega
  · have hq' := hpid q'
    have hbelow' := h.below q'
    have hapart := h.apart q q'
    omega

theorem next (h : Numbered s) (hroom : s.nextpid < 2 ^ 31 - 1) (hnext : s.next e = some s') :
    Numbered s' := by
  have hpos : 0 < s.nextpid := lt_of_le_of_lt (h.nonneg 0) (h.below 0)
  have hmore : s.nextpid < s.allocpid.nextpid := by
    change _ < wrap32 _
    rw [wrap32]
    omega
  obtain ⟨-, hnext⟩ := Option.ite_none_right_eq_some.mp hnext
  cases e with
  | step p input =>
    obtain ⟨-, hstep⟩ := Option.ite_none_right_eq_some.mp hnext
    cases hpc : (s.slot p).pc
    all_goals
      simp only [step, hpc, forkCopied, reap, allocFound] at hstep
      repeat' split at hstep
    -- one slot changes, or two, and one of them may be cleared or numbered
    all_goals first
      | cases hstep; done
      | cases hstep; exact put (s := s) rfl le_rfl (.inl rfl) h
      | cases hstep; exact put rfl le_rfl (.inl rfl) (put (s := s) rfl le_rfl (.inl rfl) h)
      | cases hstep; exact put rfl le_rfl (.inr (.inl rfl)) (put (s := s) rfl le_rfl (.inl rfl) h)
      | cases hstep; exact put rfl le_rfl (.inr (.inl rfl)) (put (s := s) rfl hmore.le (.inl rfl) h)
      | cases hstep; exact put rfl le_rfl (.inl rfl)
          (put (s := s) rfl hmore.le (.inr (.inr ⟨rfl, hmore⟩)) h)
  | _ =>
    obtain ⟨-, hnext⟩ := Option.ite_none_right_eq_some.mp hnext
    cases hnext
    exact put (s := s) rfl le_rfl (.inl rfl) h

end Numbered

/-- Whatever is interleaved, two slots never have the same identifier, and none has one that is
still to be given out, as long as the counter is an `int`. -/
theorem pids_unique (h : Reachable (fun s _ => s.nextpid < 2 ^ 31 - 1) s) :
    (∀ q, 0 ≤ s.pid q ∧ s.pid q < s.nextpid) ∧
      ∀ q q', s.pid q = s.pid q' → s.pid q ≠ 0 → q = q' := by
  have hinv : Numbered s := by
    refine Machine.Reach.invariant ?_ (fun s e s' h hroom hnext => h.next hroom hnext) h
    rintro s ⟨trapframe, pagetable, -, -, rfl⟩
    have hpid : ∀ q, (userinit trapframe pagetable).pid q = if q = 0 then 1 else 0 := by
      intro q
      by_cases hq : q = 0 <;> simp [pid, userinit, hq, allocated, freedProc]
    have hnext : (userinit trapframe pagetable).nextpid = 2 := rfl
    refine ⟨fun q => ?_, fun q => ?_, fun q q' => ?_⟩ <;> simp only [hpid] <;> split <;> simp_all
  exact ⟨fun q => ⟨hinv.nonneg q, hinv.below q⟩, hinv.apart⟩

/-- Init forks, and its child has number 2 alone. -/
theorem pids_unique_child : ∃ s, Reachable (fun s _ => s.nextpid < 2 ^ 31 - 1) s ∧ s.pid 1 = 2 ∧
    ∀ q, s.pid 1 = s.pid q → 1 = q := by
  have hrun : (Machine.run
      (fun s e => if decide (s.nextpid < 2 ^ 31 - 1) then Table.next s e else none)
      (userinit 1 1) [.run 0, .kfork 0, .step 0 none, .step 0 (some (2, 3))]).map (·.pid 1) =
      some 2 := by decide +kernel
  obtain ⟨s, hs, hpid⟩ := Option.map_eq_some_iff.mp hrun
  have hreach : Reachable (fun s _ => s.nextpid < 2 ^ 31 - 1) s :=
    .of_guarded_run (fun _ _ => of_decide_eq_true) (.start ⟨1, 1, by decide, by decide, rfl⟩) hs
  exact ⟨s, hreach, hpid, fun q hq => (pids_unique hreach).2 1 q hq (by rw [hpid]; decide)⟩

end EAFITos.Table
