/-
The beginning and the end of a process: `allocproc`, `freeproc` and `kfork`.
-/
import EAFITos.Calls
import EAFITos.UvmCopy

namespace EAFITos

open Function List Prog

variable {own : Policy} {k k' : Kernel} {held held' : List Nat} {i j : Nat}

variable {l trapframe : Nat} {post : PUnit → Kernel → Prop} {test : Proc → Bool}

/-- The process identifiers play no part in the accounting of pages. -/
theorem KInv.nextpid (h : KInv own held k) (n : Int) :
    Touched own { k with nextpid := n } k [] held held where
  inv := ⟨h.good, h.kend, h.bound, h.trampoline, h.room, h.unused, h.live⟩
  perm := List.Perm.refl _
  other := fun _ _ _ => ⟨rfl, fun _ _ => ByteMem.AgreeOn.refl _ _ _⟩
  bounds := SameBounds.refl _
  refreed := rfl
  kbufs := rfl
  initproc := rfl

theorem KInv.slotPages_unused (h : KInv own held k) (hj : j < NPROC)
    (hunused : (k.proc j).state = .UNUSED) : slotPages own k j = [] := by
  rw [slotPages, h.unused j hj hunused]
  rfl

/-- A slot that was empty and is empty again has not been touched. -/
theorem Touched.drop (h : Touched own k' k [j] held' held) (hproc : k'.proc j = k.proc j)
    (hempty : slotPages own k j = []) : Touched own k' k [] held' held := by
  refine { h with other := fun l hl _ => ?_ }
  by_cases hlj : l = j
  · rw [hlj]
    refine ⟨by rw [hproc], fun pg hpg => ?_⟩
    rw [hempty] at hpg
    exact absurd hpg not_mem_nil
  · exact h.other l hl (by simpa using hlj)

/-- The end of a process: its pages go back to the free list, except those that the
teardown unmaps without freeing. -/
theorem freeproc_spec (h : KInv own held k) (hj : j < NPROC) (hused : (k.proc j).state ≠ .UNUSED)
    (huser : ∀ vpn, own j (k.proc j).sz vpn = true → vpn < TFVPN)
    (hcover : ∀ vpn, vpn < pgup (k.proc j).sz ∨ RegionVpn (k.proc j) vpn →
      leafPte k.phys.mem (k.proc j).pagetable vpn ≠ none → own j (k.proc j).sz vpn = true) :
    (freeproc j).Holds k (fun _ k' => (∀ vpn, ¬ Stranded k.phys.mem (k.proc j) vpn) ∧
        ∃ s', k' = putSlot k j s' freedProc ∧ Touched own k' k [j]
            (lostPages k.phys.mem (k.proc j).pagetable (own j (k.proc j).sz) ++ held) held)
      (fun message => message = "freewalk: leaf" ∧ ∃ vpn, Stranded k.phys.mem (k.proc j) vpn) := by
  have hlive := h.live j hj hused
  rw [freeproc, holds_bind, holds_getProc, holds_bind, holds_onPhys]
  refine (freeprocMem_spec (h.sep hj hused) hlive.table hlive.frame hlive.small hlive.region
    huser hcover).imp ?_
  rintro _ s' ⟨hnone, hshift⟩
  rw [holds_setProc]
  refine ⟨hnone, s', rfl, ?_⟩
  refine h.touch hj (hshift.congr (List.Perm.refl _) ?_) (fun _ => rfl)
    (fun hstate => absurd rfl hstate) rfl
  exact (procPages_perm hlive.table hlive.frame held).symm

/-- What `allocproc` makes of a free slot. -/
def newProc (pid : Int) (trapframe pagetable : Nat) : Proc :=
  { freedProc with
    pid := pid
    state := .USED
    trapframe := trapframe
    pagetable := pagetable }

/-- The kernel after `allocproc` has set up a process in slot `j`. -/
def spawned (k : Kernel) (j : Nat) (s' : Phys) (p' : Proc) : Kernel :=
  { putSlot k j s' p' with nextpid := wrap32 (k.nextpid + 1) }

theorem putSlot_self (k : Kernel) (j : Nat) (s' : Phys) :
    putSlot k j s' (k.proc j) = { k with phys := s' } := by
  rw [putSlot, update_eq_self]

theorem putSlot_proc (k : Kernel) (j : Nat) (s' : Phys) (p' : Proc) :
    (putSlot k j s' p').proc j = p' := update_self _ _ _

theorem putSlot_proc_ne (k : Kernel) {j : Nat} (hne : l ≠ j) (s' : Phys) (p' : Proc) :
    (putSlot k j s' p').proc l = k.proc l := update_of_ne hne _ _

theorem spawned_proc (k : Kernel) (j : Nat) (s' : Phys) (p' : Proc) :
    (spawned k j s' p').proc j = p' := update_self _ _ _

theorem spawned_proc_ne (k : Kernel) {j : Nat} (hne : l ≠ j) (s' : Phys) (p' : Proc) :
    (spawned k j s' p').proc l = k.proc l := update_of_ne hne _ _

theorem spawned_update (k : Kernel) (j : Nat) (s s' : Phys) (p p' : Proc) :
    spawned k j s' p' = { spawned k j s p with
      phys := s'
      proc := Function.update (spawned k j s p).proc j p' } := by
  rw [spawned, spawned, putSlot, putSlot]
  dsimp only
  rw [update_idem]

section Spawned

variable {s : Phys} {p : Proc} {onPanic : String → Prop}

theorem holds_getProc_spawned {post : Proc → Kernel → Prop} :
    (getProc j).Holds (spawned k j s p) post onPanic ↔ post p (spawned k j s p) := by
  rw [holds_getProc, spawned_proc]

theorem holds_setProc_spawned {f : Proc → Proc} :
    (setProc j f).Holds (spawned k j s p) post onPanic ↔ post ⟨⟩ (spawned k j s (f p)) := by
  have hput : putSlot (spawned k j s p) j s (f p) = spawned k j s (f p) := by
    rw [putSlot, spawned, spawned, putSlot, putSlot]
    dsimp only
    rw [update_idem]
  rw [holds_setProc, spawned_proc, ← hput]
  rfl

theorem holds_onPhys_spawned {α : Type} {x : Prog Phys α} {post : α → Kernel → Prop} :
    (onPhys x).Holds (spawned k j s p) post onPanic ↔
      x.Holds s (fun r s' => post r (spawned k j s' p)) onPanic := by
  rw [holds_onPhys]
  rfl

theorem holds_freeproc_spawned : (freeproc j).Holds (spawned k j s p) post onPanic ↔
      (freeprocMem p).Holds s (fun _ s' => post ⟨⟩ (spawned k j s' freedProc)) onPanic := by
  rw [freeproc, holds_bind, holds_getProc_spawned, holds_bind, holds_onPhys_spawned]
  simp only [holds_setProc_spawned]

end Spawned

theorem scanProc_some (h : scanProc test k = some j) :
    j < NPROC ∧ test (k.proc j) = true := by
  rw [scanProc] at h
  have htest := find?_some h
  exact ⟨mem_range.1 (mem_of_find?_eq_some h), htest⟩

theorem scanProc_none (h : scanProc test k = none) (hj : j < NPROC) :
    test (k.proc j) = false := by
  have hall := find?_eq_none.1 h j (mem_range.2 hj)
  rwa [Bool.not_eq_true] at hall

/-- The pages of a slot that has just been set up, as the ledger of its table. -/
theorem newProc_perm {s : Phys} {pid : Int} {pagetable : Nat} {keep : Nat → Bool}
    (htf : trapframe ≠ 0) (hpt : pagetable ≠ 0) (held : List Nat) :
    (s.freelist ++ (procPages s.mem (newProc pid trapframe pagetable) keep ++ held)).Perm
      (ledger s pagetable keep (trapframe :: held)) :=
  procPages_perm (p := newProc pid trapframe pagetable) hpt htf held

/-- `allocproc` sets up a process with an empty address space, or fails and changes
nothing but the next identifier. -/
def AllocprocPost (own : Policy) (held : List Nat) (k : Kernel) (r : Option Nat)
    (k' : Kernel) : Prop :=
  match r with
  | none => Touched own k' k [] held held ∧ k'.proc = k.proc ∧
      ((∀ j, j < NPROC → (k.proc j).state ≠ .UNUSED) ∨ k.phys.freelist.length < 6)
  | some j => j < NPROC ∧ (k.proc j).state = .UNUSED ∧
      ∃ s' trapframe pagetable, k' = spawned k j s' (newProc k.nextpid trapframe pagetable) ∧
        Touched own k' k [j] held held ∧
        (∀ vpn, vpn < TFVPN → leafPte s'.mem pagetable vpn = none) ∧
        k.phys.freelist.length ≤ s'.freelist.length + 6

theorem allocproc_spec (h : KInv own held k)
    (huser : ∀ j vpn, j < NPROC → own j 0 vpn = true → vpn < TFVPN) :
    allocproc.Holds k (AllocprocPost own held k) (fun _ => False) := by
  rw [allocproc, holds_bind, holds_read]
  cases hscan : scanProc (fun p => p.state = .UNUSED) k with
  | none =>
    dsimp only
    rw [holds_pure]
    refine ⟨Touched.refl h, rfl, Or.inl fun j hj => ?_⟩
    exact of_decide_eq_false (scanProc_none hscan hj)
  | some j =>
    obtain ⟨hj, htest⟩ := scanProc_some hscan
    have hunused : (k.proc j).state = .UNUSED := of_decide_eq_true htest
    have hfreed := h.unused j hj hunused
    have hempty := h.slotPages_unused hj hunused
    have hpid := h.nextpid (wrap32 (k.nextpid + 1))
    have hgood : Good k.phys (k.phys.freelist ++ held) := by
      have hslot := h.slotGood hj
      rwa [hempty, nil_append] at hslot
    -- every way out restores the slot or leaves a process in it
    have hend : ∀ s' p', Shift s' k.phys
          (s'.freelist ++ (procPages s'.mem p' (own j p'.sz) ++ held)) (k.phys.freelist ++ held) →
        (p'.state = .UNUSED → p' = freedProc) → (p'.state ≠ .UNUSED → Live s' p') →
        Touched own (spawned k j s' p') k [j] held held := by
      intro s' p' hshift hun hlive
      have hslot : Shift s' k.phys (s'.freelist ++ (procPages s'.mem p' (own j p'.sz) ++ held))
          (k.phys.freelist ++ (slotPages own k j ++ held)) := by
        rw [hempty, nil_append]
        exact hshift
      have hput : Touched own (spawned k j s' p')
          { k with nextpid := wrap32 (k.nextpid + 1) } [j] held held :=
        hpid.inv.touch hj hslot hun hlive rfl
      exact (hput.trans hpid).mono (List.Subset.refl _)
    have hfail : ∀ s', Shift s' k.phys (s'.freelist ++ held) (k.phys.freelist ++ held) →
        k.phys.freelist.length < 6 → AllocprocPost own held k none (spawned k j s' freedProc) := by
      intro s' hshift hfew
      have htouched := hend s' freedProc hshift (fun _ => rfl) (fun hst => absurd rfl hst)
      have hprocs : (spawned k j s' freedProc).proc = k.proc := by
        rw [← hfreed]
        exact update_eq_self j k.proc
      exact ⟨htouched.drop (by rw [hprocs]) hempty, hprocs, Or.inr hfew⟩
    have hstart : putSlot { k with nextpid := wrap32 (k.nextpid + 1) } j k.phys
        (newProc k.nextpid 0 0) = spawned k j k.phys (newProc k.nextpid 0 0) := rfl
    dsimp only
    rw [holds_bind, allocpid, holds_bind, holds_read, holds_bind,
      holds_update, holds_pure, holds_bind, holds_setProc]
    dsimp only
    rw [hfreed]
    change Prog.Holds _ (spawned k j k.phys (newProc k.nextpid 0 0)) _ _
    rw [holds_bind, holds_onPhys_spawned, holds_kalloc]
    constructor
    · intro hnil
      dsimp only
      rw [holds_bind, holds_setProc_spawned, holds_bind, holds_freeproc_spawned]
      have hrun := freeprocMem_unmapped (p := newProc k.nextpid 0 0) rfl hgood
      refine hrun.mono ?_ nofun
      · intro _ s' hshift
        rw [holds_pure]
        exact hfail s' hshift (by rw [hnil]; decide)
    · intro trapframe rest hfree
      have hlen : k.phys.freelist.length = rest.length + 1 := by
        rw [hfree]
        rfl
      have hin : trapframe ∈ k.phys.freelist := hfree ▸ mem_cons_self
      have hheap := hgood.heap _ (mem_append_left _ hin)
      have htf0 : trapframe ≠ 0 := by
        have hkend := h.kend
        have := hheap.2.1
        omega
      have hbound : trapframe < 2 ^ 56 := Nat.lt_of_lt_of_le hheap.2.2 h.bound
      have hshift1 := shift_take held hfree (fill_frame k.phys.mem 5 hheap.1)
      dsimp only
      generalize hs1 : ({ k.phys with
        freelist := rest
        mem := k.phys.mem.fill trapframe 5 4096 } : Phys) = s1 at hshift1 ⊢
      have hfree1 : s1.freelist = rest := by rw [← hs1]
      have hgood1 := hshift1.good hgood
      rw [← hfree1] at hshift1 hgood1 hlen
      have hbounds1 := hshift1.bounds
      rw [holds_bind, holds_setProc_spawned, holds_bind, holds_onPhys_spawned]
      refine (procPagetable_spec hgood1 (by rw [hbounds1.phystop]; exact h.bound)
        (by rw [hbounds1.trampoline]; exact h.trampoline) hbound
        (fun vpn => huser j vpn hj)).mono ?_ nofun
      rintro r s2 (⟨hr, hshift2, hfew⟩ | ⟨pagetable, hr, hfresh, hcount⟩)
      · rw [hr]
        dsimp only
        rw [holds_bind, holds_setProc_spawned, holds_bind, holds_freeproc_spawned]
        have hif : (if trapframe = 0 then [] else [trapframe]) = [trapframe] := if_neg htf0
        have hgood2 : Good s2 (s2.freelist ++
            ((if trapframe = 0 then [] else [trapframe]) ++ held)) := by
          rw [hif]
          exact hshift2.good hgood1
        have hrun := freeprocMem_unmapped (p := newProc k.nextpid trapframe 0) rfl hgood2
        change (freeprocMem (newProc k.nextpid trapframe 0)).Holds s2 _ _
        refine hrun.mono ?_ nofun
        intro _ s3 hshift3
        rw [holds_pure]
        change Shift s3 s2 _
          (s2.freelist ++ ((if trapframe = 0 then [] else [trapframe]) ++ held)) at hshift3
        rw [hif] at hshift3
        exact hfail s3 (hshift3.trans (hshift2.trans hshift1)) (by omega)
      · rw [hr]
        dsimp only
        rw [holds_bind, holds_setProc_spawned, holds_pure]
        have hpt0 : pagetable ≠ 0 := by
          have hroot := hfresh.sep.inv.table_heap (root_mem_tablePages s2.mem pagetable)
          have hkend := h.kend
          have hlow := hroot.2.1
          rw [hfresh.shift.bounds.kend, hbounds1.kend] at hlow
          omega
        have hlive : Live s2 (newProc k.nextpid trapframe pagetable) :=
          ⟨hpt0, htf0, hfresh.sep.inv, hfresh.framed, Nat.zero_le _,
            ⟨fun hno => absurd hno Bool.false_ne_true, fun hno => absurd hno Bool.false_ne_true,
              fun hno => absurd hno Bool.false_ne_true⟩, ProcState.noConfusion⟩
        refine ⟨hj, hunused, s2, trapframe, pagetable, rfl, ?_, hfresh.empty, by omega⟩
        refine hend s2 _ ((hfresh.shift.trans hshift1).congr ?_ (List.Perm.refl _))
          ProcState.noConfusion (fun _ => hlive)
        exact newProc_perm htf0 hpt0 held

/-- What `kfork` does to the page of the child's trapframe. -/
theorem trapframe_frame (m : ByteMem) (hpage : trapframe % 4096 = 0) (src : Nat) :
    Frame ((m.copy trapframe src trapframeSize).storeLE (trapframe + a0Offset) 8 0) m
      [trapframe] := by
  refine (storeLE_frame _ hpage (i := 14) (by decide)).trans ?_
  intro other hother hout
  have hne : other ≠ trapframe := by simpa using hout
  have happart := pages_apart hother hpage hne
  have hsize : trapframeSize = 288 := rfl
  exact ByteMem.copy_agreeOn m (by omega)

/-- What a forked child starts with. -/
def childProc (p : Proc) (i : Nat) (pid : Int) (trapframe pagetable : Nat) : Proc :=
  { newProc pid trapframe pagetable with
    sz := p.sz
    traceMask := p.traceMask
    pageFaults := p.pageFaults
    hasRegion := p.hasRegion
    region := p.region
    parent := some i
    state := .RUNNABLE }

/-- The child maps copies of the parent's pages below its size and nothing else. -/
structure ChildOf (s' s : Phys) (parent child : Nat) (keep : Nat → Bool) (sz : Nat) :
    Prop where
  copied : ∀ vpn pte, vpn < pgup sz → leafPte s.mem parent vpn = some pte →
    ∃ pa, view s'.mem child keep vpn =
      some ⟨mkPte pa (PTE_FLAGS pte), some (pageBytes s.mem (PTE2PA pte))⟩
  empty : ∀ vpn, vpn < TFVPN → pgup sz ≤ vpn ∨ leafPte s.mem parent vpn = none →
    leafPte s'.mem child vpn = none

def ForkPost (own : Policy) (held : List Nat) (k : Kernel) (i : Nat) (r : Int)
    (k' : Kernel) : Prop :=
  (r = -1 ∧ Touched own k' k [] held held ∧ k'.proc = k.proc ∧
      ((∀ j, j < NPROC → (k.proc j).state ≠ .UNUSED) ∨
        k.phys.freelist.length < 6 + 3 * pgup (k.proc i).sz)) ∨
    ∃ j s' trapframe pagetable, r = k.nextpid ∧ j < NPROC ∧ (k.proc j).state = .UNUSED ∧
      k' = spawned k j s' (childProc (k.proc i) i k.nextpid trapframe pagetable) ∧
      Touched own k' k [j] held held ∧
      ChildOf s' k.phys (k.proc i).pagetable pagetable (own j (k.proc i).sz)
        (k.proc i).sz ∧
      k.phys.freelist.length ≤ s'.freelist.length + (6 + 3 * pgup (k.proc i).sz)

theorem kfork_spec (h : Acts own held k i)
    (huser : ∀ j sz vpn, j < NPROC → own j sz vpn = true → vpn < TFVPN)
    (hlow : ∀ j vpn, j < NPROC → vpn < pgup (k.proc i).sz → own j (k.proc i).sz vpn = true) :
    (kfork i).Holds k (ForkPost own held k i) (fun _ => False) := by
  have htf : TFVPN = 2 ^ 26 - 2 := rfl
  have hsmall := h.small
  rw [kfork, holds_bind]
  refine (allocproc_spec h.inv fun j vpn hj => huser j 0 vpn hj).imp ?_
  rintro (_ | j) k1 hpost
  · obtain ⟨htouched, hprocs, hwhy⟩ := hpost
    dsimp only
    rw [holds_pure]
    exact Or.inl ⟨rfl, htouched, hprocs, hwhy.imp_right fun hfew => by omega⟩
  obtain ⟨hj, hunused, s1, trapframe, pagetable, hk1, htouched1, hempty, hcount1⟩ := hpost
  have hij : i ≠ j := by
    rintro rfl
    rw [h.running] at hunused
    exact absurd hunused (by decide)
  have hphys1 : k1.phys = s1 := by rw [hk1]; rfl
  have hproci : k1.proc i = k.proc i := by
    rw [hk1]
    exact spawned_proc_ne k hij _ _
  have hprocj : k1.proc j = newProc k.nextpid trapframe pagetable := by
    rw [hk1]
    exact spawned_proc k j _ _
  have husedj : (k1.proc j).state ≠ .UNUSED := by
    rw [hprocj]
    exact ProcState.noConfusion
  have hsame := htouched1.other i h.slot (by simpa using hij)
  have hlive1 := htouched1.inv.live j hj husedj
  have hsep0 := htouched1.inv.sep hj husedj
  rw [hprocj, hphys1] at hsep0 hlive1
  -- the child has no page yet, so its size may already be that of the parent
  have hrekeep : ∀ vpn, vpn < 512 ^ 3 → leafPte s1.mem pagetable vpn ≠ none →
      own j (k.proc i).sz vpn = own j 0 vpn := by
    intro vpn _ hleaf
    have hhigh : ¬ vpn < TFVPN := fun hlt => hleaf (hempty vpn hlt)
    rw [Bool.eq_false_iff.2 fun hown => hhigh (huser j _ vpn hj hown),
      Bool.eq_false_iff.2 fun hown => hhigh (huser j 0 vpn hj hown)]
  have hsep1 : Sep s1 pagetable (own j (k.proc i).sz) (trapframe :: held) := hsep0.rekeep hrekeep
  have hperm1 : (s1.freelist ++ (slotPages own k1 j ++ held)).Perm
      (ledger s1 pagetable (own j (k.proc i).sz) (trapframe :: held)) := by
    rw [ledger_rekeep hrekeep, slotPages, hprocj, hphys1]
    exact newProc_perm hlive1.frame hlive1.table held
  have hleafi : ∀ vpn, vpn < 512 ^ 3 →
      leafPte s1.mem (k.proc i).pagetable vpn = leafPte k.phys.mem (k.proc i).pagetable vpn := by
    intro vpn hvpn
    have heq := hsame.leafPte_eq h.live.table hvpn
    rwa [hproci, hphys1] at heq
  have houti : ∀ pg ∈ slotPages own k i, HeapPage s1 pg ∧
      pg ∉ ledger s1 pagetable (own j (k.proc i).sz) (trapframe :: held) := by
    intro pg hpg
    rw [← hsame.slotPages_eq] at hpg
    have hdis := htouched1.inv.slot_disjoint hj h.slot hij hpg
    rw [hphys1] at hdis
    exact ⟨hdis.1, fun hin => hdis.2 (hperm1.mem_iff.2 hin)⟩
  have hapart : Apart s1 (k.proc i).pagetable pagetable (own j (k.proc i).sz)
      (trapframe :: held) (pgup (k.proc i).sz) := by
    have hlivei := htouched1.inv.live i h.slot (by rw [hproci]; exact h.used)
    rw [hproci, hphys1] at hlivei
    refine ⟨?_, ?_⟩
    · intro pg hpg
      have hin : pg ∈ slotPages own k1 i := by
        rw [slotPages, hproci, hphys1, procPages_live hlivei.table hlivei.frame]
        exact mem_cons_of_mem _ (mem_append_left _ hpg)
      rw [hsame.slotPages_eq] at hin
      exact ⟨(houti pg hin).1.1, (houti pg hin).2⟩
    · intro vpn pte hlt hpte
      have hin : PTE2PA pte ∈ slotPages own k1 i := by
        rw [slotPages, hproci, hphys1, procPages_live hlivei.table hlivei.frame]
        exact mem_cons_of_mem _ (mem_append_right _
          (mem_ownedLeaves_iff.2 ⟨vpn, pte, by omega, h.low vpn hlt, hpte, rfl⟩))
      rw [hsame.slotPages_eq] at hin
      exact ⟨(houti _ hin).2, hlivei.inv.leaf vpn pte (by omega) hpte⟩
  dsimp only
  rw [holds_bind, holds_getProc, holds_bind, holds_getProc, hproci, hprocj, hk1,
    holds_bind, holds_onPhys_spawned]
  refine (uvmcopy_spec hsep1 hapart (by omega) (fun vpn => hlow j vpn hj)
    (fun vpn hlt => hempty vpn (by omega))).mono ?_ (by rintro _ ⟨⟩)
  rintro r s2 ⟨hmoved2, ⟨hr, hcopied, hcount2, -⟩ | ⟨hr, hun, hfew⟩⟩
  · -- the memory is copied; the trapframe follows
    rw [hr, if_neg (by decide), holds_bind, holds_onPhys_spawned, memmove,
      holds_update, holds_bind, holds_onPhys_spawned, storePte, holds_update,
      holds_bind, holds_setProc_spawned, holds_pure]
    have htfheap := (hmoved2.sep hsep1).heldHeap mem_cons_self
    obtain ⟨hmoved4, hview4⟩ := moved_writeHeld (hmoved2.sep hsep1)
      (trapframe_frame s2.mem htfheap.1 (k.proc i).trapframe) (by simp)
    change ForkPost own held k i k.nextpid (spawned k j { s2 with
      mem := (s2.mem.copy trapframe (k.proc i).trapframe trapframeSize).storeLE
        (trapframe + a0Offset) 8 0 } (childProc (k.proc i) i k.nextpid trapframe pagetable))
    generalize hs4 : ({ s2 with
      mem := (s2.mem.copy trapframe (k.proc i).trapframe trapframeSize).storeLE
        (trapframe + a0Offset) 8 0 } : Phys) = s4 at hmoved4 hview4 ⊢
    have hfree4 : s4.freelist = s2.freelist := by rw [← hs4]
    have hmoved := hmoved4.trans hmoved2
    have hfixed : ∀ vpn, TFVPN ≤ vpn → vpn < 2 ^ 26 →
        leafPte s4.mem pagetable vpn = leafPte s1.mem pagetable vpn := by
      intro vpn hlo hlt
      rw [hview4.leaves vpn (by omega), leafPte_eq_view _ _ (own j (k.proc i).sz),
        (hcopied vpn (by omega)).2 (Or.inl (by omega)), ← leafPte_eq_view]
    have hlive : Live s4 (childProc (k.proc i) i k.nextpid trapframe pagetable) :=
      ⟨hlive1.table, hlive1.frame, hmoved.inv,
        hlive1.framed.congr hmoved.shift.bounds hfixed, h.live.small,
        ⟨h.live.region.start, h.live.region.size, h.live.region.fits⟩, fun _ => rfl⟩
    have htouched : Touched own
        (spawned k j s4 (childProc (k.proc i) i k.nextpid trapframe pagetable)) k1 [j]
        held held := by
      refine htouched1.inv.touch hj ?_ ProcState.noConfusion (fun _ => hlive) ?_
      · rw [hphys1]
        refine hmoved.shift.congr ?_ hperm1.symm
        exact procPages_perm (p := childProc (k.proc i) i k.nextpid trapframe pagetable)
          hlive1.table hlive1.frame held
      · rw [hk1]
        exact spawned_update k j _ _ _ _
    refine Or.inr ⟨j, s4, trapframe, pagetable, rfl, hj, hunused, rfl,
      (htouched.trans htouched1).mono (by simp), ⟨?_, ?_⟩, by rw [hfree4]; omega⟩
    · intro vpn pte hlt hpte
      have hpte1 := hpte
      rw [← hleafi vpn (by omega)] at hpte1
      obtain ⟨pa, hview⟩ := (hcopied vpn (by omega)).1 pte (by omega) hpte1
      have hpage : SamePage s1.mem k.phys.mem (PTE2PA pte) := by
        rw [← hphys1]
        apply hsame.mem
        rw [slotPages, procPages_live h.live.table h.live.frame]
        exact mem_cons_of_mem _ (mem_append_right _
          (mem_ownedLeaves_iff.2 ⟨vpn, pte, by omega, h.low vpn hlt, hpte, rfl⟩))
      rw [pageBytes_congr hpage] at hview
      exact ⟨pa, (hview4 vpn (by omega)).trans hview⟩
    · intro vpn hlt hwhy
      rw [← hleafi vpn (by omega)] at hwhy
      rw [hview4.leaves vpn (by omega), leafPte_eq_view _ _ (own j (k.proc i).sz),
        (hcopied vpn (by omega)).2 (hwhy.imp_left fun hge => by omega), ← leafPte_eq_view]
      exact hempty vpn hlt
  · -- no memory: the child is released again
    have hnone2 : ∀ vpn, vpn < TFVPN → leafPte s2.mem pagetable vpn = none := by
      intro vpn hlt
      by_cases hin : vpn < pgup (k.proc i).sz
      · exact hun.leaf_in (by omega) (by omega)
      · rw [hun.leaf_other (by omega) (by omega)]
        exact hempty vpn hlt
    rw [hr, if_pos (by decide), holds_bind, holds_freeproc_spawned]
    have hregion : ∀ vpn, ¬ RegionVpn (newProc k.nextpid trapframe pagetable) vpn :=
      fun vpn hin => absurd hin.1 Bool.false_ne_true
    refine (freeprocMem_spec (hmoved2.sep hsep1) hlive1.table hlive1.frame hlive1.small
      hlive1.region (fun vpn => huser j _ vpn hj) ?_).mono ?_ ?_
    · rintro vpn (hlt | hin)
      · have hzero : pgup 0 = 0 := by decide
        change vpn < pgup 0 at hlt
        rw [hzero] at hlt
        exact absurd hlt (Nat.not_lt_zero vpn)
      · exact absurd hin (hregion vpn)
    · rintro _ s3 ⟨_, hshift3⟩
      have hlost : lostPages s2.mem pagetable (own j (k.proc i).sz) = [] := by
        rw [lostPages, leafOwned_of_none (hnone2 _ (by decide)),
          leafOwned_of_none (hnone2 _ (by decide)), nil_append]
      change Shift s3 s2 (s3.freelist ++
        (lostPages s2.mem pagetable (own j (k.proc i).sz) ++ held)) _ at hshift3
      rw [hlost, nil_append] at hshift3
      rw [holds_pure]
      have hback : Touched own (spawned k j s3 freedProc) k1 [j] held held := by
        have hshift : Shift s3 k1.phys (s3.freelist ++ held)
            (k1.phys.freelist ++ (slotPages own k1 j ++ held)) := by
          rw [hphys1]
          exact (hshift3.trans hmoved2.shift).congr (List.Perm.refl _) hperm1.symm
        refine htouched1.inv.touch hj hshift (fun _ => rfl) (fun hst => absurd rfl hst) ?_
        rw [hk1]
        exact spawned_update k j _ _ _ _
      have hprocs : (spawned k j s3 freedProc).proc = k.proc := by
        rw [← h.inv.unused j hj hunused]
        exact update_eq_self j k.proc
      have hboth : Touched own (spawned k j s3 freedProc) k [j] held held :=
        (hback.trans htouched1).mono (by simp)
      exact Or.inl ⟨rfl, hboth.drop (by rw [hprocs]) (h.inv.slotPages_unused hj hunused),
        hprocs, Or.inr (by omega)⟩
    · rintro message ⟨_, vpn, hstranded⟩
      exact hstranded.1.2.2.2.2 (hnone2 vpn hstranded.1.2.1)

end EAFITos
