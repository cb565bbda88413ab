/-
Processes are isolated: without `shmem`, what the others do leaves the memory of a process alone.
-/
import EAFITos.SlotStep

namespace EAFITos

open Function List

variable {k k' : Kernel} {held : List Nat} {i j : Nat}

/-- The step lemma: a call of `i` leaves the other processes that run as they were. -/
theorem Call.run_others (h : Acts fullOwn held k i) (c : Call) (hc : c.isShmem = false)
    (hj : j < NPROC) (hji : j ≠ i) (hrun : (k.proc j).state = .RUNNABLE) :
    (c.run i).Holds k (fun _ k' => SameSlot fullOwn k' k j) (fun _ => True) := by
  have hself : ∀ {k' held'}, Touched fullOwn k' k [i] held' held → SameSlot fullOwn k' k j :=
    fun ht => ht.other j hj (by simpa using hji)
  have hrefl := SameSlot.refl fullOwn k j
  cases c with
  | sbrk n =>
    refine holds_ignoring.mpr ((sysSbrk_spec h fun _ _ _ _ _ _ => rfl).mono ?_ (by simp))
    rintro r k' (⟨-, -, rfl⟩ | ⟨sz', s', -, -, rfl, ht, -⟩)
    · exact hrefl
    · exact hself ht
  | mapzero size =>
    refine holds_ignoring.mpr ((sysMapzero_spec h).mono ?_ (by simp))
    rintro r k' (⟨-, -, rfl⟩ | ⟨len, -, -, -, rfl, ht⟩)
    · exact hrefl
    · exact hself ht
  | mapRo va =>
    refine holds_ignoring.mpr ((sysMapRo_spec h fun _ => fullOwn_iff.mpr).mono ?_ (by simp))
    rintro r k' ⟨-, s', rfl, ht, -⟩
    exact hself ht
  | shmem pid va => cases hc
  | fork =>
    refine holds_ignoring.mpr ((kfork_spec h (fun _ _ _ _ => fullOwn_user)
      fun _ _ _ => fullOwn_low h.live.small).mono ?_ (by simp))
    rintro r k' (⟨-, ht, -, -⟩ | ⟨l, s', trapframe, pagetable, -, -, hunused, -, ht, -⟩)
    · exact ht.other j hj not_mem_nil
    · refine ht.other j hj ?_
      rw [mem_singleton]
      rintro rfl
      cases hrun.symm.trans hunused
  | exec namei upath uargv =>
    refine holds_ignoring.mpr ((sysExec_spec h (fun _ _ => fullOwn_user)
      fun _ _ => fullOwn_low).mono ?_ (by simp))
    rintro r k' (⟨-, s', -, ht, -⟩ | ⟨_, _, _, img, _, _, _, s', root, -, -, -, -, -, -, ht, -⟩)
    · exact hself ht
    · exact hself ht
  | exit status =>
    have hput : putSlot k i k.phys { k.proc i with killed := (k.proc i).killed } = k :=
      putSlot_self k i k.phys
    have ht := h.inv.exit h.slot h.used (k.proc i).killed (argint status)
    rw [hput] at ht
    exact holds_kexit.mpr ⟨fun _ => trivial, fun _ => hself ht⟩
  | wait addr =>
    refine holds_ignoring.mpr ((kwait_spec h (fun _ _ _ => fullOwn_user)
      (zombie_covered h.inv)).mono ?_ (by simp))
    rintro r k' (⟨-, s', -, ht, -⟩ | ⟨l, s1, s', hchild, -, -, -, ht, -, ht'⟩)
    · exact hself ht
    · refine SameSlot.trans (ht'.other j hj ?_) (hself ht)
      rw [mem_singleton]
      rintro rfl
      cases hrun.symm.trans hchild.2.2
  | load va =>
    refine holds_ignoring.mpr ((userLoad_spec h fun _ _ => fullOwn_iff.mpr).mono ?_ (by simp))
    rintro r k' ⟨_, hpost, -⟩
    exact hself hpost.1
  | store va b =>
    refine holds_ignoring.mpr ((userStore_spec h fun _ _ => fullOwn_iff.mpr).mono ?_ (by simp))
    rintro r k' (⟨-, hpost⟩ | ⟨_, _, _, -, -, -, ht, -⟩)
    · exact hself hpost.1
    · exact hself ht
  | copyin src len =>
    rw [Call.run, holds_ignoring, copyinFrom, Prog.holds_bind, holds_getProc]
    refine (h.copyin).mono ?_ (by simp)
    rintro r k' ⟨s', -, ht, -⟩
    exact hself ht
  | copyout dst bytes =>
    rw [Call.run, holds_ignoring, copyoutTo, Prog.holds_bind, holds_getProc]
    refine (h.copyout).mono ?_ (by simp)
    rintro r k' ⟨s', -, ht, -⟩
    exact hself ht

section Run

variable {calls : List (Nat × Call)} (h : Unshared k) (hj : j < NPROC)
  (hrun : (k.proc j).state = .RUNNABLE)
  (hcalls : ∀ e ∈ calls, e.1 ≠ j ∧ e.2.isShmem = false)
  (hk : Machine.run Kernel.next k calls = some k')
include h hj hrun hcalls hk

/-- The run lemma, by induction on the calls of the others. -/
theorem SameSlot.of_run : SameSlot fullOwn k' k j := by
  induction calls generalizing k with
  | nil => exact Option.some.inj hk ▸ SameSlot.refl fullOwn k j
  | cons e rest ih =>
    obtain ⟨k1, hnext, hrest⟩ := Option.bind_eq_some_iff.mp hk
    obtain ⟨⟨hother, hshmem⟩, hcalls⟩ := forall_mem_cons.mp hcalls
    obtain ⟨held, hsound⟩ := h.sound
    obtain ⟨hi, hrunning, hcall⟩ := Kernel.next_eq_some hnext
    have hsame := (Call.run_others (hsound.inv.acts hi hrunning) e.2 hshmem hj hother.symm
      hrun).of_ok hcall
    have hrun1 : (k1.proc j).state = .RUNNABLE := by
      rw [hsame.proc]
      exact hrun
    exact (ih (h.step hshmem hnext) hrun1 hcalls hrest).trans hsame

end Run

end EAFITos
