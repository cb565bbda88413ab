/-
The pages of the whole kernel.  Each page the allocator manages is free, a kernel
buffer, or belongs to one slot of the process table; a step of one process moves
pages between the free list and its own slot and leaves every other slot alone.
-/
import EAFITos.ProcTable
import EAFITos.UserCopy

namespace EAFITos

open Function List

variable {p p' : Proc} {s' : Phys}

variable {keep : Nat → Bool} {s : Phys}

variable {m m' : ByteMem} {slots slots' : List Nat}

/-- Which leaf pages count as the property of the process in a slot; the arguments
are the slot, the size of the process and the virtual page. -/
def Policy : Type := Nat → Nat → Nat → Bool

/-- The pages of a process: the trapframe, the page-table pages and the leaf pages
selected by `keep`. -/
def procPages (m : ByteMem) (p : Proc) (keep : Nat → Bool) : List Nat :=
  (if p.trapframe = 0 then [] else [p.trapframe]) ++
    if p.pagetable = 0 then []
    else tablePages m p.pagetable ++ ownedLeaves m p.pagetable keep

def slotPages (own : Policy) (k : Kernel) (i : Nat) : List Nat :=
  procPages k.phys.mem (k.proc i) (own i (k.proc i).sz)

/-- All pages accounted for. -/
def pages (own : Policy) (k : Kernel) : List Nat :=
  k.phys.freelist ++ (k.kbufs ++ (List.range NPROC).flatMap (slotPages own k))

/-- The pages of the kernel buffers and of every slot but one. -/
def restPages (own : Policy) (k : Kernel) (i : Nat) : List Nat :=
  k.kbufs ++ ((List.range NPROC).erase i).flatMap (slotPages own k)

/-- The memory of a process that exists. -/
structure Live (s : Phys) (p : Proc) : Prop where
  table : p.pagetable ≠ 0
  frame : p.trapframe ≠ 0
  inv : PtInv s p.pagetable
  framed : Framed s p.pagetable p.trapframe
  small : p.sz ≤ TRAPFRAME
  region : RegionOk p
  alive : p.state = .RUNNABLE → p.killed = false

/-- The invariant of the kernel: no page plays two roles, and every process in use
has a page table with its trapframe.  The pages `held` are outside all slots. -/
structure KInv (own : Policy) (held : List Nat) (k : Kernel) : Prop where
  good : Good k.phys (pages own k ++ held)
  kend : 0 < k.phys.kend
  bound : k.phys.phystop ≤ 2 ^ 56
  trampoline : k.phys.trampoline < 2 ^ 56
  room : k.phys.phystop ≤ k.phys.kend + 2 ^ 27
  unused : ∀ i, i < NPROC → (k.proc i).state = .UNUSED → k.proc i = freedProc
  live : ∀ i, i < NPROC → (k.proc i).state ≠ .UNUSED → Live k.phys (k.proc i)

/-- A slot that a step has not touched: the process is the same up to its parent,
and so is the memory of its pages. -/
structure SameSlot (own : Policy) (k' k : Kernel) (j : Nat) : Prop where
  proc : k'.proc j = { k.proc j with parent := (k'.proc j).parent }
  mem : ∀ pg ∈ slotPages own k j, SamePage k'.phys.mem k.phys.mem pg

/-- From `k` to `k'` only the given slots have changed, and pages have only moved. -/
structure Touched (own : Policy) (k' k : Kernel) (slots held' held : List Nat) : Prop where
  inv : KInv own held' k'
  perm : (pages own k' ++ held').Perm (pages own k ++ held)
  other : ∀ j, j < NPROC → j ∉ slots → SameSlot own k' k j
  bounds : SameBounds k'.phys k.phys
  refreed : k'.phys.refreed = k.phys.refreed
  kbufs : k'.kbufs = k.kbufs
  initproc : k'.initproc = k.initproc

section Slots

variable {own : Policy} {k k' k'' : Kernel} {held held' held'' : List Nat} {i j : Nat}

theorem pages_perm (own : Policy) (k : Kernel) (hi : i < NPROC) :
    (pages own k).Perm (k.phys.freelist ++ (slotPages own k i ++ restPages own k i)) := by
  rw [pages, restPages]
  apply List.Perm.append_left
  have herase := perm_cons_erase (mem_range.2 hi)
  have hslots := herase.flatMap_right (slotPages own k)
  rw [flatMap_cons] at hslots
  refine (hslots.append_left k.kbufs).trans ?_
  rw [← append_assoc, ← append_assoc]
  exact perm_append_comm.append_right _

theorem procPages_live (ht : p.pagetable ≠ 0) (hf : p.trapframe ≠ 0) :
    procPages m p keep =
      p.trapframe :: (tablePages m p.pagetable ++ ownedLeaves m p.pagetable keep) := by
  rw [procPages, if_neg hf, if_neg ht, singleton_append]

theorem procPages_freed (m : ByteMem) (keep : Nat → Bool) :
    procPages m freedProc keep = [] := rfl

theorem procPages_perm (ht : p.pagetable ≠ 0) (hf : p.trapframe ≠ 0) (held : List Nat) :
    (s.freelist ++ (procPages s.mem p keep ++ held)).Perm
      (ledger s p.pagetable keep (p.trapframe :: held)) := by
  rw [procPages_live ht hf, ledger]
  refine perm_iff_count.2 fun pg => ?_
  simp only [count_append, count_cons]
  omega

/-- All pages, with those that concern one slot in front. -/
theorem pages_split (own : Policy) (k : Kernel) (held : List Nat) (hi : i < NPROC) :
    (pages own k ++ held).Perm
      ((k.phys.freelist ++ (slotPages own k i ++ held)) ++ restPages own k i) := by
  refine perm_iff_count.2 fun pg => ?_
  have hcount := (pages_perm own k hi).count_eq pg
  simp only [count_append] at hcount ⊢
  omega

theorem KInv.slotGood (h : KInv own held k) (hi : i < NPROC) :
    Good k.phys (k.phys.freelist ++ (slotPages own k i ++ held)) :=
  (h.good.perm (pages_split own k held hi).symm).left

theorem KInv.sep (h : KInv own held k) (hi : i < NPROC) (hused : (k.proc i).state ≠ .UNUSED) :
    Sep k.phys (k.proc i).pagetable (own i (k.proc i).sz) ((k.proc i).trapframe :: held) := by
  have hlive := h.live i hi hused
  refine ⟨hlive.inv, ?_⟩
  refine (h.slotGood hi).perm ?_
  exact (procPages_perm hlive.table hlive.frame held).symm

theorem procPages_congr (hsame : ∀ pg ∈ procPages m p keep, SamePage m' m pg)
    (ht : p'.pagetable = p.pagetable) (hf : p'.trapframe = p.trapframe) :
    procPages m' p' keep = procPages m p keep := by
  rw [procPages, procPages, ht, hf]
  congr 1
  by_cases hzero : p.pagetable = 0
  · rw [if_pos hzero, if_pos hzero]
  · rw [if_neg hzero, if_neg hzero]
    have htables : ∀ pg ∈ tablePages m p.pagetable, SamePage m' m pg := by
      intro pg hpg
      apply hsame
      rw [procPages, if_neg hzero]
      exact mem_append_right _ (mem_append_left _ hpg)
    have howned : ownedLeaves m' p.pagetable keep = ownedLeaves m p.pagetable keep :=
      ownedLeaves_congr fun vpn hvpn => by rw [leafPte_congr htables hvpn]
    rw [tablePages_congr htables, howned]

namespace SameSlot

theorem refl (own : Policy) (k : Kernel) (j : Nat) : SameSlot own k k j :=
  ⟨rfl, fun _ _ => ByteMem.AgreeOn.refl _ _ _⟩

theorem sz (h : SameSlot own k' k j) : (k'.proc j).sz = (k.proc j).sz := by
  rw [h.proc]

theorem pagetable (h : SameSlot own k' k j) :
    (k'.proc j).pagetable = (k.proc j).pagetable := by
  rw [h.proc]

theorem slotPages_eq (h : SameSlot own k' k j) : slotPages own k' j = slotPages own k j := by
  rw [slotPages, slotPages, h.sz]
  exact procPages_congr h.mem h.pagetable (by rw [h.proc])

theorem trans (h' : SameSlot own k'' k' j) (h : SameSlot own k' k j) :
    SameSlot own k'' k j := by
  refine ⟨?_, ?_⟩
  · have hproc := h'.proc
    rw [h.proc] at hproc
    exact hproc
  · intro pg hpg
    exact (h'.mem pg (h.slotPages_eq ▸ hpg)).trans (h.mem pg hpg)

section

variable (h : SameSlot own k' k j) (ht : (k.proc j).pagetable ≠ 0)
include h ht

/-- The page table of an untouched slot. -/
theorem samePage_table : ∀ pg ∈ tablePages k.phys.mem (k.proc j).pagetable,
      SamePage k'.phys.mem k.phys.mem pg := by
  intro pg hpg
  apply h.mem
  rw [slotPages, procPages, if_neg ht]
  exact mem_append_right _ (mem_append_left _ hpg)

theorem leafPte_eq {vpn : Nat} (hvpn : vpn < 512 ^ 3) :
    leafPte k'.phys.mem (k'.proc j).pagetable vpn =
      leafPte k.phys.mem (k.proc j).pagetable vpn := by
  rw [h.pagetable]
  exact leafPte_congr (h.samePage_table ht) hvpn

theorem byteAt_eq {a : Nat} (ha : a / 4096 < 512 ^ 3)
    (hown : own j (k.proc j).sz (a / 4096) = true) :
    byteAt k'.phys.mem (k'.proc j).pagetable a = byteAt k.phys.mem (k.proc j).pagetable a := by
  have hleaf := h.leafPte_eq ht ha
  cases hpte : leafPte k.phys.mem (k.proc j).pagetable (a / 4096) with
  | none => rw [byteAt_of_none hpte, byteAt_of_none (hleaf.trans hpte)]
  | some pte =>
    rw [byteAt_of_leaf hpte, byteAt_of_leaf (hleaf.trans hpte)]
    have hpage : PTE2PA pte ∈ slotPages own k j := by
      rw [slotPages, procPages, if_neg ht]
      exact mem_append_right _ (mem_append_right _
        (mem_ownedLeaves_iff.2 ⟨_, pte, ha, hown, hpte, rfl⟩))
    exact h.mem _ hpage _ (by omega) (by omega)

end

end SameSlot

theorem Live.congr (h : Live s p)
    (hsame : ∀ pg ∈ tablePages s.mem p.pagetable, SamePage s'.mem s.mem pg)
    (hinv : PtInv s' p.pagetable) (hbounds : SameBounds s' s)
    (hp : p' = { p with parent := p'.parent }) : Live s' p' := by
  have hframed : Framed s' p.pagetable p.trapframe :=
    h.framed.congr hbounds fun vpn _ hlt => leafPte_congr hsame (by omega)
  rw [hp]
  exact ⟨h.table, h.frame, hinv, hframed, h.small,
    ⟨h.region.start, h.region.size, h.region.fits⟩, h.alive⟩

theorem KInv.slot_disjoint (h : KInv own held k) (hi : i < NPROC) (hj : j < NPROC)
    (hne : j ≠ i) {pg : Nat} (hpg : pg ∈ slotPages own k j) :
    HeapPage k.phys pg ∧ pg ∉ k.phys.freelist ++ (slotPages own k i ++ held) := by
  have hrest : pg ∈ restPages own k i := by
    rw [restPages]
    apply mem_append_right
    rw [mem_flatMap]
    exact ⟨j, (mem_erase_of_ne hne).2 (mem_range.2 hj), hpg⟩
  have hall := (pages_split own k held hi).nodup_iff.1 h.good.nodup
  have hin : pg ∈ pages own k := by
    rw [(pages_perm own k hj).mem_iff]
    exact mem_append_right _ (mem_append_left _ hpg)
  exact ⟨h.good.heap pg (mem_append_left _ hin), fun hin => (nodup_append'.1 hall).2.2 hin hrest⟩

/-- What a change of memory within the free list and some slot does to another
slot. -/
theorem KInv.other (h : KInv own held k) (hi : i < NPROC) (hj : j < NPROC) (hne : j ≠ i)
    (hframe : Frame m' k.phys.mem (k.phys.freelist ++ (slotPages own k i ++ held))) :
    ∀ pg ∈ slotPages own k j, SamePage m' k.phys.mem pg := by
  intro pg hpg
  obtain ⟨hheap, hout⟩ := h.slot_disjoint hi hj hne hpg
  exact hframe pg hheap.1 hout

theorem restPages_congr (hkbufs : k'.kbufs = k.kbufs)
    (hslots : ∀ j, j < NPROC → j ≠ i → slotPages own k' j = slotPages own k j) :
    restPages own k' i = restPages own k i := by
  rw [restPages, restPages, hkbufs]
  congr 1
  apply flatMap_congr
  intro j hj
  rw [nodup_range.mem_erase_iff, mem_range] at hj
  exact hslots j hj.2 hj.1

/-- The tables of any slot are separate from the free list. -/
theorem tables_nodup_of_good (hgood : Good k.phys (pages own k ++ held)) (hj : j < NPROC)
    (ht : (k.proc j).pagetable ≠ 0) :
    (k.phys.freelist ++ tablePages k.phys.mem (k.proc j).pagetable).Nodup := by
  have hnodup := ((hgood.left).perm (pages_perm own k hj).symm).nodup
  have hsub : (tablePages k.phys.mem (k.proc j).pagetable).Sublist
      (slotPages own k j ++ restPages own k j) := by
    rw [slotPages, procPages, if_neg ht]
    refine List.Sublist.trans ?_ (sublist_append_left _ _)
    exact (sublist_append_left _ _).trans (sublist_append_right _ _)
  exact hnodup.sublist ((List.Sublist.refl _).append hsub)

theorem KInv.touch (h : KInv own held k) (hi : i < NPROC) (hshift : Shift s' k.phys
      (s'.freelist ++ (procPages s'.mem p' (own i p'.sz) ++ held'))
      (k.phys.freelist ++ (slotPages own k i ++ held)))
    (hunused : p'.state = .UNUSED → p' = freedProc) (hlive : p'.state ≠ .UNUSED → Live s' p')
    (hk' : k' = { k with phys := s', proc := Function.update k.proc i p' }) :
    Touched own k' k [i] held' held := by
  have hphys : k'.phys = s' := by rw [hk']
  have hself : k'.proc i = p' := by
    rw [hk']
    exact update_self i p' k.proc
  have hne : ∀ j, j ≠ i → k'.proc j = k.proc j := by
    intro j hj
    rw [hk']
    exact update_of_ne hj p' k.proc
  have hkbufs : k'.kbufs = k.kbufs := by rw [hk']
  have hother : ∀ j, j < NPROC → j ≠ i → SameSlot own k' k j := by
    intro j hj hji
    refine ⟨by rw [hne j hji], ?_⟩
    rw [hphys]
    exact h.other hi hj hji hshift.frame
  have hslot : slotPages own k' i = procPages s'.mem p' (own i p'.sz) := by
    rw [slotPages, hself, hphys]
  have hperm : (pages own k' ++ held').Perm (pages own k ++ held) := by
    refine (pages_split own k' held' hi).trans (List.Perm.trans ?_ (pages_split own k held hi).symm)
    rw [hslot, hphys, restPages_congr hkbufs fun j hj hji => (hother j hj hji).slotPages_eq]
    exact hshift.perm.append_right _
  have hbounds : SameBounds k'.phys k.phys := hphys ▸ hshift.bounds
  have hgood : Good k'.phys (pages own k' ++ held') :=
    ⟨hperm.nodup_iff.2 h.good.nodup, fun pg hpg =>
      (hbounds.heapPage_iff pg).2 (h.good.heap pg (hperm.mem_iff.1 hpg))⟩
  refine ⟨⟨hgood, ?_, ?_, ?_, ?_, ?_, ?_⟩, hperm, ?_, hbounds, ?_, hkbufs, ?_⟩
  · rw [hbounds.kend]
    exact h.kend
  · rw [hbounds.phystop]
    exact h.bound
  · rw [hbounds.trampoline]
    exact h.trampoline
  · rw [hbounds.phystop, hbounds.kend]
    exact h.room
  · intro j hj hstate
    by_cases hji : j = i
    · rw [hji, hself] at hstate ⊢
      exact hunused hstate
    · rw [hne j hji] at hstate ⊢
      exact h.unused j hj hstate
  · intro j hj hstate
    by_cases hji : j = i
    · rw [hji, hself] at hstate ⊢
      rw [hphys]
      exact hlive hstate
    · have hsame := hother j hj hji
      rw [hne j hji] at hstate
      have hold := h.live j hj hstate
      have htables := hsame.samePage_table hold.table
      refine hold.congr htables ?_ hbounds hsame.proc
      refine hold.inv.congr htables ?_ ?_ hbounds
      · have hnodup := tables_nodup_of_good hgood hj (by rw [hne j hji]; exact hold.table)
        rw [hne j hji, tablePages_congr htables] at hnodup
        exact hnodup
      · intro pg hpg
        rw [← hbounds.heapPage_iff]
        refine hgood.heap pg (mem_append_left _ ?_)
        rw [pages]
        exact mem_append_left _ hpg
  · intro j hj hout
    exact hother j hj fun hji => hout (hji ▸ mem_cons_self)
  · rw [hphys]
    exact hshift.refreed
  · rw [hk']

/-- A process record that may stand for `p` once `p` is in use: the same page table
and trapframe, and the rest in order. -/
structure Kept (p' p : Proc) : Prop where
  table : p'.pagetable = p.pagetable
  frame : p'.trapframe = p.trapframe
  used : p'.state ≠ .UNUSED
  small : p'.sz ≤ TRAPFRAME
  region : RegionOk p'
  alive : p'.state = .RUNNABLE → p'.killed = false

theorem Live.kept (h : Live s p) (hused : p.state ≠ .UNUSED) :
    Kept p p := ⟨rfl, rfl, hused, h.small, h.region, h.alive⟩

section

variable (h : KInv own held k) (hi : i < NPROC) (hused : (k.proc i).state ≠ .UNUSED)
include h hi hused

/-- A step that works on the page table of one process. -/
theorem KInv.moved (hmoved : Moved s' k.phys (k.proc i).pagetable (own i (k.proc i).sz)
      ((k.proc i).trapframe :: held') ((k.proc i).trapframe :: held))
    (hfixed : ∀ vpn, TFVPN ≤ vpn → vpn < 2 ^ 26 → leafPte s'.mem (k.proc i).pagetable vpn =
        leafPte k.phys.mem (k.proc i).pagetable vpn) (hkept : Kept p' (k.proc i))
    (hkeep : ∀ vpn, vpn < 512 ^ 3 → leafPte s'.mem (k.proc i).pagetable vpn ≠ none →
      own i p'.sz vpn = own i (k.proc i).sz vpn)
    (hk' : k' = { k with phys := s', proc := Function.update k.proc i p' }) :
    Touched own k' k [i] held' held := by
  have hlive := h.live i hi hused
  have htable : p'.pagetable ≠ 0 := hkept.table ▸ hlive.table
  have hframe : p'.trapframe ≠ 0 := hkept.frame ▸ hlive.frame
  refine h.touch hi (hmoved.shift.congr ?_ ?_) (fun hstate => absurd hstate hkept.used)
    (fun _ => ?_) hk'
  · refine (procPages_perm htable hframe held').trans ?_
    rw [hkept.table, hkept.frame, ledger_rekeep hkeep]
  · exact (procPages_perm hlive.table hlive.frame held).symm
  · refine ⟨htable, hframe, ?_, ?_, hkept.small, hkept.region, hkept.alive⟩
    · rw [hkept.table]
      exact hmoved.inv
    · rw [hkept.table, hkept.frame]
      exact hlive.framed.congr hmoved.shift.bounds hfixed

/-- A step that changes process records and nothing else. -/
theorem KInv.setProcs {procs : Nat → Proc} (hkept : Kept (procs i) (k.proc i))
    (hsz : (procs i).sz = (k.proc i).sz) (hother : ∀ j, j < NPROC → j ≠ i →
      procs j = { k.proc j with parent := (procs j).parent } ∧
        ((k.proc j).state = .UNUSED → procs j = k.proc j)) (hk' : k' = { k with proc := procs }) :
    Touched own k' k [i] held held := by
  have hphys : k'.phys = k.phys := by rw [hk']
  have hproc : k'.proc = procs := by rw [hk']
  have hkbufs : k'.kbufs = k.kbufs := by rw [hk']
  have hmem : ∀ pg, SamePage k'.phys.mem k.phys.mem pg := by
    rw [hphys]
    exact fun pg => ByteMem.AgreeOn.refl _ _ _
  have hsame : ∀ j, j < NPROC → j ≠ i → SameSlot own k' k j := by
    intro j hj hji
    refine ⟨?_, fun pg _ => hmem pg⟩
    rw [hproc]
    exact (hother j hj hji).1
  have hslots : ∀ j ∈ List.range NPROC, slotPages own k' j = slotPages own k j := by
    intro j hj
    by_cases hji : j = i
    · rw [hji, slotPages, slotPages, hproc, hsz]
      exact procPages_congr (fun pg _ => hmem pg) hkept.table hkept.frame
    · exact (hsame j (mem_range.1 hj) hji).slotPages_eq
  have hpages : pages own k' = pages own k := by
    rw [pages, pages, hphys, hkbufs, flatMap_congr hslots]
  have hlive := h.live i hi hused
  refine ⟨⟨?_, ?_, ?_, ?_, ?_, ?_, ?_⟩, ?_, ?_, ?_, ?_, hkbufs, ?_⟩
  · rw [hphys, hpages]
    exact h.good
  · rw [hphys]
    exact h.kend
  · rw [hphys]
    exact h.bound
  · rw [hphys]
    exact h.trampoline
  · rw [hphys]
    exact h.room
  · intro j hj hstate
    rw [hproc] at hstate ⊢
    by_cases hji : j = i
    · rw [hji] at hstate
      exact absurd hstate hkept.used
    · have hprocj := hother j hj hji
      have hunused : (k.proc j).state = .UNUSED := by
        rw [hprocj.1] at hstate
        exact hstate
      rw [hprocj.2 hunused]
      exact h.unused j hj hunused
  · intro j hj hstate
    rw [hproc] at hstate ⊢
    rw [hphys]
    by_cases hji : j = i
    · rw [hji]
      refine ⟨hkept.table ▸ hlive.table, hkept.frame ▸ hlive.frame, ?_, ?_, hkept.small,
        hkept.region, hkept.alive⟩
      · rw [hkept.table]
        exact hlive.inv
      · rw [hkept.table, hkept.frame]
        exact hlive.framed
    · have hprocj := (hother j hj hji).1
      have hold := h.live j hj (by rw [hprocj] at hstate; exact hstate)
      exact hold.congr (fun _ _ => ByteMem.AgreeOn.refl _ _ _) hold.inv (SameBounds.refl _) hprocj
  · rw [hpages]
  · exact fun j hj hout => hsame j hj fun hji => hout (hji ▸ mem_cons_self)
  · rw [hphys]
    exact SameBounds.refl _
  · rw [hphys]
  · rw [hk']

end

/-- A step that moves pages between the free list and `held` alone. -/
theorem KInv.shuffle (h : KInv own held k)
    (hshift : Shift s' k.phys (s'.freelist ++ held') (k.phys.freelist ++ held)) :
    Touched own { k with phys := s' } k [] held' held := by
  have h0 : 0 < NPROC := by decide
  have hout : ∀ j, j < NPROC → ∀ pg ∈ slotPages own k j, SamePage s'.mem k.phys.mem pg := by
    intro j hj pg hpg
    have hgood := h.slotGood hj
    have hnodup := hgood.nodup
    rw [nodup_append', nodup_append'] at hnodup
    obtain ⟨_, ⟨_, _, hslotheld⟩, hfree⟩ := hnodup
    refine hshift.frame pg (hgood.heap pg ?_).1 ?_
    · exact mem_append_right _ (mem_append_left _ hpg)
    · intro hin
      rcases mem_append.1 hin with hin | hin
      · exact hfree hin (mem_append_left _ hpg)
      · exact hslotheld hpg hin
  have hslot : procPages s'.mem (k.proc 0) (own 0 (k.proc 0).sz) = slotPages own k 0 :=
    procPages_congr (hout 0 h0) rfl rfl
  have hall : Shift s' k.phys (s'.freelist ++ (slotPages own k 0 ++ held'))
      (k.phys.freelist ++ (slotPages own k 0 ++ held)) := by
    refine (hshift.append (slotPages own k 0)).congr ?_ ?_
    all_goals
      refine perm_iff_count.2 fun pg => ?_
      simp only [count_append]
      omega
  have htouched : Touched own { k with phys := s' } k [0] held' held := by
    have hslots : Shift s' k.phys
        (s'.freelist ++ (procPages s'.mem (k.proc 0) (own 0 (k.proc 0).sz) ++ held'))
        (k.phys.freelist ++ (slotPages own k 0 ++ held)) := by
      rw [hslot]
      exact hall
    refine h.touch h0 hslots (h.unused 0 h0) ?_ ?_
    · intro hused
      have hlive := h.live 0 h0 hused
      have htables : ∀ pg ∈ tablePages k.phys.mem (k.proc 0).pagetable,
          SamePage s'.mem k.phys.mem pg := by
        intro pg hpg
        apply hout 0 h0
        rw [slotPages, procPages_live hlive.table hlive.frame]
        exact mem_cons_of_mem _ (mem_append_left _ hpg)
      refine hlive.congr htables ?_ hshift.bounds rfl
      have hgood := hall.good (h.slotGood h0)
      have hsub : (s'.freelist ++ tablePages k.phys.mem (k.proc 0).pagetable).Sublist
          (s'.freelist ++ (slotPages own k 0 ++ held')) := by
        refine (List.Sublist.refl _).append ?_
        rw [slotPages, procPages_live hlive.table hlive.frame, cons_append]
        refine List.Sublist.cons _ ?_
        rw [append_assoc]
        exact sublist_append_left _ _
      exact hlive.inv.carry htables hgood hsub hshift.bounds
    · rw [update_eq_self]
  refine { htouched with other := fun j hj _ => ⟨rfl, hout j hj⟩ }

theorem Touched.refl (h : KInv own held k) : Touched own k k [] held held where
  inv := h
  perm := List.Perm.refl _
  other := fun j _ _ => SameSlot.refl own k j
  bounds := SameBounds.refl _
  refreed := rfl
  kbufs := rfl
  initproc := rfl

theorem Touched.trans (h' : Touched own k'' k' slots' held'' held')
    (h : Touched own k' k slots held' held) :
    Touched own k'' k (slots' ++ slots) held'' held where
  inv := h'.inv
  perm := h'.perm.trans h.perm
  other := fun j hj hout =>
    (h'.other j hj fun hin => hout (mem_append_left _ hin)).trans
      (h.other j hj fun hin => hout (mem_append_right _ hin))
  bounds := h'.bounds.trans h.bounds
  refreed := h'.refreed.trans h.refreed
  kbufs := h'.kbufs.trans h.kbufs
  initproc := h'.initproc.trans h.initproc

theorem Touched.mono (h : Touched own k' k slots held' held) (hsub : slots ⊆ slots') :
    Touched own k' k slots' held' held :=
  { h with other := fun j hj hout => h.other j hj fun hin => hout (hsub hin) }

end Slots

end EAFITos
