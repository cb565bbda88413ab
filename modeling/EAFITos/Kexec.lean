/-
`kexec`: the old address space is replaced by the image of the file, or the call
fails and leaves everything as it was.
-/
import EAFITos.ExecSpec
import EAFITos.Fork

namespace EAFITos

open List Prog Option

variable {own : Policy} {k k' : Kernel} {held held' : List Nat} {i : Nat}

variable {keep : Nat → Bool} {m : ByteMem} {sp : Nat} {s3 : Phys}

variable {s s4 : Phys} {trapframe entry : Nat} {file : List UInt8}

theorem lostPages_congr {m' : ByteMem} {root : Nat}
    (hleaf : ∀ vpn, vpn < TFVPN → leafPte m' root vpn = leafPte m root vpn) :
    lostPages m' root keep = lostPages m root keep := by
  rw [lostPages, lostPages, leafOwned_congr (hleaf _ (by decide)),
    leafOwned_congr (hleaf _ (by decide))]

theorem leafOwned_subset {root vpn : Nat} (hvpn : vpn < 512 ^ 3) :
    leafOwned m root keep vpn ⊆ ownedLeaves m root keep := by
  intro pg hpg
  rw [leafOwned] at hpg
  split at hpg
  · rename_i hkeep
    rw [mem_toList, map_eq_some_iff] at hpg
    obtain ⟨pte, hpte, rfl⟩ := hpg
    exact mem_ownedLeaves_iff.2 ⟨vpn, pte, hvpn, hkeep, hpte, rfl⟩
  · cases hpg

theorem lostPages_subset {root : Nat} : lostPages m root keep ⊆ ownedLeaves m root keep := by
  intro pg hpg
  rw [lostPages, mem_append] at hpg
  rcases hpg with hpg | hpg
  · exact leafOwned_subset (by decide) hpg
  · exact leafOwned_subset (by decide) hpg

/-- The end of a page table leaves no fewer free pages. -/
theorem freed_length_le {s' : Phys} {root : Nat} (hsep : Sep s root keep [])
    (hshift : Shift s' s (s'.freelist ++ (lostPages s.mem root keep ++ []))
      (ledger s root keep [])) : s.freelist.length ≤ s'.freelist.length := by
  have hnodup := (hshift.good hsep.good).nodup
  rw [append_nil, nodup_append'] at hnodup
  have hle := (hnodup.2.1.subperm lostPages_subset).length_le
  have hcount := hshift.perm.length_eq
  simp only [ledger, length_append, length_nil] at hcount
  omega

/-- Taking down an image that was not used: nothing is lost, as no image reaches the
two special pages. -/
theorem Building.discard {root : Nat} {img : Image} (h : Building s root trapframe held img) :
    (procFreepagetable root img.sz).Holds s
      (fun _ s' => Shift s' s (s'.freelist ++ held) (ledger s root userVpn held))
      (fun _ => False) := by
  have hpages := h.pages_le
  have hnone : ∀ vpn, pgup img.sz ≤ vpn → vpn < TFVPN → leafPte s.mem root vpn = none :=
    h.shows.empty
  have hro : 2 ^ 15 ≤ ROVPN ∧ ROVPN < TFVPN := by decide
  have hsh : 2 ^ 15 ≤ SHVPN ∧ SHVPN < TFVPN := by decide
  refine (procFreepagetable_spec h.sep h.shows.fits (fun vpn => userVpn_iff.1) ?_).mono ?_ ?_
  · intro vpn hlt _
    exact userVpn_iff.2 (by omega)
  · rintro _ s' ⟨_, hshift⟩
    rwa [lostPages, leafOwned_of_none (hnone _ (by omega) (by omega)),
      leafOwned_of_none (hnone _ (by omega) (by omega)), nil_append, nil_append] at hshift
  · rintro message ⟨_, vpn, hlo, hlt, _, _, hleaf⟩
    exact hleaf (hnone vpn hlo hlt)

/-- What `kexec` does: it fails and no process notices, or the process has the image
of the file for its memory. -/
def ExecPost (own : Policy) (held : List Nat) (k : Kernel) (i : Nat)
    (file : Option (List UInt8)) (argv : List (List UInt8)) (r : Int) (k' : Kernel) : Prop :=
  (r = -1 ∧ ∃ s', k' = { k with phys := s' } ∧ Touched own k' k [] held held) ∨
    ∃ bytes img sp argc s' root, file = some bytes ∧
      execImage bytes argv = some (img, sp, argc) ∧ r = argc ∧
      k' = putSlot k i s' { k.proc i with pagetable := root, sz := img.sz } ∧
      (∀ vpn, ¬ Uncovered k.phys.mem (k.proc i).pagetable (k.proc i).sz vpn) ∧
      Touched own k' k [i]
        (lostPages k.phys.mem (k.proc i).pagetable (own i (k.proc i).sz) ++ held) held ∧
      Shows s' root img ∧ root ≠ (k.proc i).pagetable

/-- The registers that `kexec` sets in the trapframe. -/
def execRegs (m : ByteMem) (trapframe sp entry : Nat) : ByteMem :=
  ((m.storeLE (trapframe + a1Offset) 8 sp).storeLE (trapframe + epcOffset) 8
    entry).storeLE (trapframe + spOffset) 8 sp

theorem execRegs_frame (m : ByteMem) (hpage : trapframe % 4096 = 0) :
    Frame (execRegs m trapframe sp entry) m [trapframe] :=
  (storeLE_frame _ hpage (i := 6) (by decide)).trans
    ((storeLE_frame _ hpage (i := 3) (by decide)).trans
      (storeLE_frame _ hpage (i := 15) (by decide)))

section Commit

variable {s2 : Phys} {root : Nat} {img : Image}

/-- The moment at which `kexec` commits: the new image has been built from free pages,
and the old page table is still there. -/
structure Built (own : Policy) (held : List Nat) (k : Kernel) (i : Nat) (s2 : Phys)
    (root : Nat) (img : Image) : Prop where
  inv : KInv own held k
  slot : i < NPROC
  used : (k.proc i).state ≠ .UNUSED
  building : Building s2 root (k.proc i).trapframe [] img
  shift : Shift s2 k.phys (ledger s2 root userVpn []) k.phys.freelist

namespace Built

section

variable (h : Built own held k i s2 root img)
include h

theorem live : Live k.phys (k.proc i) := h.inv.live i h.slot h.used

/-- All the pages that concern the call. -/
theorem all : Shift s2 k.phys (ledger s2 root userVpn [] ++ (slotPages own k i ++ held))
      (k.phys.freelist ++ (slotPages own k i ++ held)) := h.shift.append _

theorem good : Good s2 (ledger s2 root userVpn [] ++ (slotPages own k i ++ held)) :=
  h.all.good (h.inv.slotGood h.slot)

theorem slotPages_eq : slotPages own k i = (k.proc i).trapframe ::
      (tablePages k.phys.mem (k.proc i).pagetable ++
        ownedLeaves k.phys.mem (k.proc i).pagetable (own i (k.proc i).sz)) := by
  rw [slotPages, procPages_live h.live.table h.live.frame]

theorem heap_trapframe : HeapPage k.phys (k.proc i).trapframe := by
  refine (h.inv.slotGood h.slot).heap _ (mem_append_right _ (mem_append_left _ ?_))
  rw [h.slotPages_eq]
  exact mem_cons_self

/-- The new page table is another one. -/
theorem root_ne : root ≠ (k.proc i).pagetable := by
  intro heq
  have hnodup := h.good.nodup
  rw [ledger, h.slotPages_eq, nodup_append'] at hnodup
  have hdisjoint := hnodup.2.2
  refine @hdisjoint root ?_ ?_
  · exact mem_append_right _ (mem_append_left _ (root_mem_tablePages s2.mem root))
  · rw [heq]
    exact mem_append_left _ (mem_cons_of_mem _ (mem_append_left _
      (root_mem_tablePages k.phys.mem _)))

end

theorem old_ledger (_h : Built own held k i s2 root img) (hfree : s3.freelist = s2.freelist)
    (htables : ∀ pg ∈ tablePages k.phys.mem (k.proc i).pagetable, SamePage s3.mem k.phys.mem pg)
    (hview : SameView s3 k.phys (k.proc i).pagetable (own i (k.proc i).sz)) :
    ledger s3 (k.proc i).pagetable (own i (k.proc i).sz) [] =
      s2.freelist ++ (tablePages k.phys.mem (k.proc i).pagetable ++
        ownedLeaves k.phys.mem (k.proc i).pagetable (own i (k.proc i).sz)) := by
  rw [ledger, hfree, tablePages_congr htables, hview.leaves.owned, append_nil]

section

variable (h : Built own held k i s2 root img)
include h

/-- The trapframe is none of them. -/
theorem trapframe_out :
    (k.proc i).trapframe ∉ s2.freelist ++ (tablePages k.phys.mem (k.proc i).pagetable ++
      ownedLeaves k.phys.mem (k.proc i).pagetable (own i (k.proc i).sz)) := by
  have hnodup := h.good.nodup
  rw [h.slotPages_eq, nodup_append', cons_append, nodup_cons] at hnodup
  obtain ⟨-, ⟨hslot, -⟩, hnew⟩ := hnodup
  intro hin
  rcases mem_append.1 hin with hfree | hin
  · exact hnew (mem_append_left _ hfree) mem_cons_self
  · exact hslot (mem_append_left _ hin)

/-- The old page table while the new image and the registers are written. -/
theorem old (hframe : Frame s3.mem s2.mem [(k.proc i).trapframe])
    (hfree : s3.freelist = s2.freelist) (hbounds : SameBounds s3 s2) :
    Sep s3 (k.proc i).pagetable (own i (k.proc i).sz) [] ∧
      (∀ pg ∈ tablePages k.phys.mem (k.proc i).pagetable, SamePage s3.mem k.phys.mem pg) ∧
      SameView s3 k.phys (k.proc i).pagetable (own i (k.proc i).sz) := by
  have hsep := h.inv.sep h.slot h.used
  obtain ⟨_, _, _, _, hfreeout, htableout, hleafout⟩ := hsep.disjoint
  have hframe3 : Frame s3.mem k.phys.mem ((k.proc i).trapframe :: k.phys.freelist) :=
    (hframe.mono (by simp)).trans (h.shift.frame.mono (subset_cons_self _ _))
  obtain ⟨htables, hview⟩ := hsep.unchanged hframe3 (by
    intro pg hpg hin
    rcases mem_append.1 hpg with htable | hleaf
    · rcases mem_cons.1 hin with heq | hfr
      · exact (htableout pg htable).2 (heq ▸ mem_cons_self)
      · exact (hfreeout pg hfr).1 htable
    · rcases mem_cons.1 hin with heq | hfr
      · exact hleafout pg hleaf (heq ▸ mem_cons_self)
      · exact (hfreeout pg hfr).2.1 hleaf)
  have hbounds' := hbounds.trans h.shift.bounds
  have hgood : Good s3 (ledger s2 root userVpn [] ++ (slotPages own k i ++ held)) :=
    ⟨h.good.nodup, fun pg hpg => (hbounds.heapPage_iff pg).2 (h.good.heap pg hpg)⟩
  have hledger := h.old_ledger hfree htables hview
  have hsub : (ledger s3 (k.proc i).pagetable (own i (k.proc i).sz) []).Sublist
      (ledger s2 root userVpn [] ++ (slotPages own k i ++ held)) := by
    rw [hledger, h.slotPages_eq, ledger]
    refine List.Sublist.append (sublist_append_left _ _) ?_
    exact List.Sublist.cons _ (sublist_append_left _ _)
  refine ⟨⟨h.live.inv.carry htables hgood ?_ hbounds', ?_⟩, htables, hview⟩
  · refine List.Sublist.trans ?_ hsub
    rw [hledger, hfree]
    exact (List.Sublist.refl _).append (sublist_append_left _ _)
  · exact ⟨hgood.nodup.sublist hsub, fun pg hpg => hgood.heap pg (hsub.subset hpg)⟩

theorem new (hframe3 : Frame s3.mem s2.mem [(k.proc i).trapframe])
    (hfree3 : s3.freelist = s2.freelist)
    (htables3 : ∀ pg ∈ tablePages k.phys.mem (k.proc i).pagetable, SamePage s3.mem k.phys.mem pg)
    (hview3 : SameView s3 k.phys (k.proc i).pagetable (own i (k.proc i).sz))
    (hframe4 : Frame s4.mem s3.mem (ledger s3 (k.proc i).pagetable (own i (k.proc i).sz) [])) :
    (∀ pg ∈ tablePages s2.mem root, SamePage s4.mem s2.mem pg) ∧ SameView s4 s2 root userVpn ∧
      Frame s4.mem k.phys.mem (k.phys.freelist ++ (slotPages own k i ++ held)) := by
  have hledger := h.old_ledger hfree3 htables3 hview3
  have hframe : Frame s4.mem s2.mem (s2.freelist ++ slotPages own k i) := by
    refine (hframe4.mono ?_).trans (hframe3.mono ?_)
    · rw [hledger, h.slotPages_eq]
      intro pg hpg
      rcases mem_append.1 hpg with hfr | hslot
      · exact mem_append_left _ hfr
      · exact mem_append_right _ (mem_cons_of_mem _ hslot)
    · rw [h.slotPages_eq]
      simp
  obtain ⟨htables, hview⟩ := h.building.sep.unchanged hframe (by
    have hnodup := h.good.nodup
    rw [ledger, append_nil] at hnodup
    intro pg hpg hin
    rw [nodup_append'] at hnodup
    obtain ⟨hnew, _, hdisj⟩ := hnodup
    rcases mem_append.1 hin with hfr | hslot
    · exact (nodup_append'.1 hnew).2.2 hfr hpg
    · exact hdisj (mem_append_right _ hpg) (mem_append_left _ hslot))
  refine ⟨htables, hview, ?_⟩
  refine (hframe.mono ?_).trans (h.shift.frame.mono (subset_append_left _ _))
  intro pg hpg
  rcases mem_append.1 hpg with hfr | hslot
  · apply mem_append_left
    rw [← h.shift.perm.mem_iff, ledger]
    exact mem_append_left _ hfr
  · exact mem_append_right _ (mem_append_left _ hslot)

section

variable (huser : ∀ sz vpn, own i sz vpn = true → vpn < TFVPN)
  (hlow : ∀ vpn, vpn < pgup img.sz → own i img.sz vpn = true)
include huser hlow

/-- The pages that the new image owns do not depend on the policy. -/
theorem owned_eq (hview : SameView s4 s2 root userVpn) :
    ownedLeaves s4.mem root (own i img.sz) = ownedLeaves s2.mem root userVpn := by
  apply ownedLeaves_congr
  intro vpn hvpn
  rw [hview.leaves vpn hvpn]
  by_cases hnone : leafPte s2.mem root vpn = none
  · rw [hnone, ite_self, ite_self]
  · have heq : own i img.sz vpn = userVpn vpn := by
      rw [Bool.eq_iff_iff, userVpn_iff]
      refine ⟨huser _ vpn, fun hlt => hlow vpn ?_⟩
      by_contra hge
      exact hnone (h.building.shows.empty vpn (by omega) hlt)
    rw [heq]

/-- The commit: the old page table is taken down and the process has the new one. -/
theorem commit (hcover : ∀ vpn, vpn < pgup (k.proc i).sz →
      leafPte k.phys.mem (k.proc i).pagetable vpn ≠ none → own i (k.proc i).sz vpn = true) :
    (procFreepagetable (k.proc i).pagetable (k.proc i).sz).Holds
      { s2 with mem := execRegs s2.mem (k.proc i).trapframe sp entry }
      (fun _ s4 => (∀ vpn, ¬ Uncovered k.phys.mem (k.proc i).pagetable (k.proc i).sz vpn) ∧
        Touched own (putSlot k i s4 { k.proc i with pagetable := root, sz := img.sz }) k [i]
          (lostPages k.phys.mem (k.proc i).pagetable (own i (k.proc i).sz) ++ held) held ∧
        Shows s4 root img ∧ s2.freelist.length ≤ s4.freelist.length ∧
        SamePage s4.mem (execRegs s2.mem (k.proc i).trapframe sp entry) (k.proc i).trapframe)
      (fun message => message = "freewalk: leaf" ∧
        ∃ vpn, Uncovered k.phys.mem (k.proc i).pagetable (k.proc i).sz vpn) := by
  have htf : TFVPN = 2 ^ 26 - 2 := rfl
  have hpages : pgup (k.proc i).sz ≤ TFVPN := pgup_le h.live.small
  have hframe3 : Frame (execRegs s2.mem (k.proc i).trapframe sp entry) s2.mem
      [(k.proc i).trapframe] := execRegs_frame s2.mem h.heap_trapframe.1
  generalize hs3 : ({ s2 with
    mem := execRegs s2.mem (k.proc i).trapframe sp entry } : Phys) = s3
  have hmem3 : s3.mem = execRegs s2.mem (k.proc i).trapframe sp entry := by rw [← hs3]
  have hfree3 : s3.freelist = s2.freelist := by rw [← hs3]
  have hbounds3 : SameBounds s3 s2 := by
    rw [← hs3]
    exact ⟨rfl, rfl, rfl⟩
  rw [← hmem3] at hframe3
  obtain ⟨hsep3, htables3, hview3⟩ := h.old hframe3 hfree3 hbounds3
  have hleaf3 : ∀ vpn, vpn < TFVPN → leafPte s3.mem (k.proc i).pagetable vpn =
      leafPte k.phys.mem (k.proc i).pagetable vpn := fun vpn hlt => hview3.leaves vpn (by omega)
  have hiff : ∀ vpn, Uncovered s3.mem (k.proc i).pagetable (k.proc i).sz vpn ↔
      Uncovered k.phys.mem (k.proc i).pagetable (k.proc i).sz vpn := by
    intro vpn
    constructor
    · rintro ⟨hlo, hlt, hsh, hro, hleaf⟩
      exact ⟨hlo, hlt, hsh, hro, hleaf3 vpn hlt ▸ hleaf⟩
    · rintro ⟨hlo, hlt, hsh, hro, hleaf⟩
      exact ⟨hlo, hlt, hsh, hro, (hleaf3 vpn hlt).symm ▸ hleaf⟩
  refine (procFreepagetable_spec hsep3 h.live.small (huser _) ?_).mono ?_ ?_
  · intro vpn hlt hleaf
    rw [hleaf3 vpn (by omega)] at hleaf
    exact hcover vpn hlt hleaf
  · rintro _ s4 ⟨hnone, hshift4⟩
    have hlost : lostPages _ _ (own i (k.proc i).sz) = _ := lostPages_congr hleaf3
    rw [hlost] at hshift4
    obtain ⟨htables4, hview4, hframe4⟩ := h.new hframe3 hfree3 htables3 hview3 hshift4.frame
    have hbounds4 := hshift4.bounds.trans (hbounds3.trans h.shift.bounds)
    have hroot : root ≠ 0 := by
      have hheap := h.building.sep.inv.table_heap (root_mem_tablePages s2.mem root)
      have hkend := h.inv.kend
      have hlo := hheap.2.1
      rw [h.shift.bounds.kend] at hlo
      omega
    have hprocPages : procPages s4.mem { k.proc i with pagetable := root, sz := img.sz }
        (own i img.sz) = (k.proc i).trapframe ::
          (tablePages s2.mem root ++ ownedLeaves s2.mem root userVpn) := by
      rw [procPages_live (p := { k.proc i with pagetable := root, sz := img.sz }) hroot
        h.live.frame, tablePages_congr htables4, h.owned_eq huser hlow hview4]
    have hshift : Shift s4 k.phys
        (s4.freelist ++ (procPages s4.mem { k.proc i with pagetable := root, sz := img.sz }
          (own i img.sz) ++ (lostPages k.phys.mem (k.proc i).pagetable
            (own i (k.proc i).sz) ++ held))) (k.phys.freelist ++ (slotPages own k i ++ held)) := by
      refine ⟨?_, hframe4, hbounds4, ?_⟩
      · refine perm_iff_count.2 fun pg => ?_
        have hcount4 := hshift4.perm.count_eq pg
        have hcount2 := h.shift.perm.count_eq pg
        rw [hprocPages, h.slotPages_eq]
        rw [ledger, hfree3, tablePages_congr htables3, hview3.leaves.owned] at hcount4
        rw [ledger] at hcount2
        simp only [count_append, count_cons, count_nil] at hcount4 hcount2 ⊢
        omega
      · rw [hshift4.refreed, ← h.shift.refreed, ← hs3]
    have hcount : s2.freelist.length ≤ s4.freelist.length := by
      rw [← hfree3]
      exact freed_length_le hsep3 (hlost ▸ hshift4)
    have hregs : SamePage s4.mem s3.mem (k.proc i).trapframe := by
      refine hshift4.frame _ h.heap_trapframe.1 ?_
      rw [h.old_ledger hfree3 htables3 hview3]
      exact h.trapframe_out
    refine ⟨fun vpn hun => hnone vpn ((hiff vpn).2 hun), ?_, h.building.shows.congr hview4,
      hcount, hmem3 ▸ hregs⟩
    refine h.inv.touch h.slot hshift (fun hst => absurd hst h.used) (fun _ => ?_) rfl
    refine ⟨hroot, h.live.frame, ?_, ?_, h.building.shows.fits, ⟨h.live.region.start,
      h.live.region.size, h.live.region.fits⟩, h.live.alive⟩
    · refine h.building.sep.inv.carry htables4 (hshift.good (h.inv.slotGood h.slot)) ?_
        (hshift4.bounds.trans hbounds3)
      refine (List.Sublist.refl _).append ?_
      rw [hprocPages, cons_append, append_assoc]
      exact List.Sublist.cons _ (sublist_append_left _ _)
    · exact h.building.framed.congr (hshift4.bounds.trans hbounds3)
        fun vpn _ hlt => hview4.leaves vpn (by omega)
  · rintro message ⟨hmessage, vpn, hun⟩
    exact ⟨hmessage, vpn, (hiff vpn).1 hun⟩

end

end

end Built

end Commit

/-- The file begins with the header of a program. -/
def IsProgram (file : List UInt8) : Prop :=
  (readi file 0 elfhdrSize).length = elfhdrSize ∧
    (parseElfhdr (readi file 0 elfhdrSize)).magic = ELF_MAGIC

/-- What `kexec` has built in a new page table at `root`. -/
def ExecBuilt (k : Kernel) (i : Nat) (file : List UInt8) (argv : List (List UInt8)) (root : Nat)
    (r : Except Nat (Nat × Nat × Nat)) (s2 : Phys) : Prop :=
  ∃ s1, procPagetable (k.proc i).trapframe k.phys = .ok (some root) s1 ∧
    buildImage (k.proc i).sz (k.proc i).pagetable root file
      (parseElfhdr (readi file 0 elfhdrSize)) argv s1 = .ok r s2

theorem ExecBuilt.unique {argv : List (List UInt8)} {root root' : Nat}
    {r r' : Except Nat (Nat × Nat × Nat)} {s2 s2' : Phys} (h : ExecBuilt k i file argv root r s2)
    (h' : ExecBuilt k i file argv root' r' s2') : root' = root ∧ r' = r ∧ s2' = s2 := by
  obtain ⟨s1, htable, hbuild⟩ := h
  obtain ⟨s1', htable', hbuild'⟩ := h'
  rw [htable] at htable'
  cases htable'
  rw [hbuild] at hbuild'
  cases hbuild'
  exact ⟨rfl, rfl, rfl⟩

/-- What `kexec` does and why: it fails because there is no image, or the image that it has
built is the memory of the process and its registers are set. -/
def ExecExact (own : Policy) (held : List Nat) (k : Kernel) (i : Nat)
    (file : Option (List UInt8)) (argv : List (List UInt8)) (r : Int) (k' : Kernel) : Prop :=
  (r = -1 ∧ (∃ s', k' = { k with phys := s' } ∧ Touched own k' k [] held held) ∧
      ∀ bytes root b s2, file = some bytes → IsProgram bytes →
        ExecBuilt k i bytes argv root b s2 → ∃ sz, b = .error sz) ∨
    ∃ bytes img sp argc s2 s' root, file = some bytes ∧
      ExecBuilt k i bytes argv root (.ok (img.sz, sp, argc)) s2 ∧
      execImage bytes argv = some (img, sp, argc) ∧ r = argc ∧
      k' = putSlot k i s' { k.proc i with pagetable := root, sz := img.sz } ∧
      (∀ vpn, ¬ Uncovered k.phys.mem (k.proc i).pagetable (k.proc i).sz vpn) ∧
      Touched own k' k [i]
        (lostPages k.phys.mem (k.proc i).pagetable (own i (k.proc i).sz) ++ held) held ∧
      Shows s' root img ∧ root ≠ (k.proc i).pagetable ∧
      s2.freelist.length ≤ s'.freelist.length ∧
      SamePage s'.mem (execRegs s2.mem (k.proc i).trapframe sp
        (parseElfhdr (readi bytes 0 elfhdrSize)).entry) (k.proc i).trapframe

/-- `kexec` panics only once the new image is complete, where taking down the old page table
does. -/
def ExecPanic (k : Kernel) (i : Nat) (file : Option (List UInt8)) (argv : List (List UInt8))
    (message : String) : Prop :=
  message = "freewalk: leaf" ∧
    (∃ vpn, Uncovered k.phys.mem (k.proc i).pagetable (k.proc i).sz vpn) ∧
    ∃ bytes root r s2, file = some bytes ∧ ExecBuilt k i bytes argv root (.ok r) s2

section Exec

variable {argv : List (List UInt8)} (h : KInv own held k) (hi : i < NPROC)
  (hused : (k.proc i).state ≠ .UNUSED) (hargs : ∀ str ∈ argv, str.length < 4096)
  (huser : ∀ sz vpn, own i sz vpn = true → vpn < TFVPN)
  (hlow : ∀ sz vpn, sz ≤ TRAPFRAME → vpn < pgup sz → own i sz vpn = true)

include h hi hused hargs huser hlow

/-- `kexec` gives the process the image of the file. -/
theorem kexec_exact {file : Option (List UInt8)} :
    (kexec i file argv).Holds k (ExecExact own held k i file argv) (ExecPanic k i file argv) := by
  have hlive := h.live i hi hused
  cases file with
  | none =>
    rw [kexec, holds_pure]
    exact Or.inl ⟨rfl, ⟨k.phys, rfl, Touched.refl h⟩, nofun⟩
  | some file =>
    -- a failure after which the free list holds the same pages
    have hfail : ∀ s', Shift s' k.phys (s'.freelist ++ []) (k.phys.freelist ++ []) →
        (IsProgram file → ∀ root b s2, ExecBuilt k i file argv root b s2 → ∃ sz, b = .error sz) →
        ExecExact own held k i (some file) argv (-1) { k with phys := s' } := by
      intro s' hshift hbad
      rw [append_nil, append_nil] at hshift
      refine Or.inl ⟨rfl, ⟨s', rfl, h.shuffle (hshift.append held)⟩, ?_⟩
      rintro _ root b s2 ⟨⟩ hprogram
      exact hbad hprogram root b s2
    rw [kexec]
    split
    · next hlength =>
      exact (holds_pure _).2 (hfail _ (Shift.refl _ _) fun hp => absurd hp.1 hlength)
    split
    · next hmagic =>
      exact (holds_pure _).2 (hfail _ (Shift.refl _ _) fun hp => absurd hp.2 hmagic)
    have hgood : Good k.phys (k.phys.freelist ++ []) := by
      rw [append_nil]
      exact (h.slotGood hi).left
    have htfheap : HeapPage k.phys (k.proc i).trapframe := (h.sep hi hused).heldHeap mem_cons_self
    rw [holds_bind, holds_getProc, holds_bind, holds_onPhys]
    obtain ⟨r, s1, htable, hcase⟩ := (procPagetable_spec hgood h.bound h.trampoline
      (Nat.lt_of_lt_of_le htfheap.2.2 h.bound) (fun vpn => userVpn_iff.1)).exists_ok
    refine holds_of_ok htable ?_
    rcases hcase with ⟨rfl, hshift1, _⟩ | ⟨root, rfl, hfresh, _⟩
    · refine (holds_pure _).2 (hfail s1 hshift1 fun _ root b s2 hbuilt => ?_)
      obtain ⟨s1', htable', -⟩ := hbuilt
      rw [htable] at htable'
      cases htable'
    have hroom : s1.phystop ≤ s1.kend + 2 ^ 27 := by
      rw [hfresh.shift.bounds.phystop, hfresh.shift.bounds.kend]
      exact h.room
    dsimp only
    rw [holds_bind, holds_onPhys]
    obtain ⟨b, s2, hbuild, hmoved2, hcase⟩ := (buildImage_spec
      ⟨hfresh.sep, hfresh.framed, shows_fresh hfresh, hroom⟩ hargs).exists_ok
    have hexec : ExecBuilt k i file argv root b s2 := ⟨s1, htable, hbuild⟩
    refine holds_of_ok hbuild ?_
    have hshift := hmoved2.shift.trans hfresh.shift
    rcases b with sz | ⟨sz, sp, argc⟩
    · obtain ⟨img, hsz, hbuilding⟩ := hcase
      rw [holds_bind, holds_onPhys, hsz]
      refine hbuilding.discard.mono ?_ nofun
      intro _ s3 hshift3
      refine (holds_pure _).2 (hfail s3 (hshift3.trans hshift) fun _ root' b' s' hother => ?_)
      exact ⟨sz, (hexec.unique hother).2.1⟩
    · obtain ⟨img, ⟨himg, hsz⟩, hbuilding⟩ := hcase
      subst hsz
      rw [append_nil] at hshift
      have hbuilt : Built own held k i s2 root img := ⟨h, hi, hused, hbuilding, hshift⟩
      dsimp only
      rw [holds_bind, holds_onPhys, storePte, holds_update, holds_bind,
        holds_setProc, holds_bind, holds_onPhys, storePte, holds_update,
        holds_bind, holds_onPhys, storePte, holds_update, holds_bind, holds_onPhys]
      refine (hbuilt.commit huser (fun vpn => hlow _ vpn hbuilding.shows.fits)
        (fun vpn hlt _ => hlow _ vpn hlive.small hlt)).mono ?_ fun _ hpanic =>
          ⟨hpanic.1, hpanic.2, file, root, _, s2, rfl, hexec⟩
      rintro _ s4 ⟨hnone, htouched, hshows, hcount, hregs⟩
      exact (holds_pure _).2 (Or.inr ⟨file, img, sp, argc, s2, s4, root, rfl, hexec, himg, rfl,
        rfl, hnone, htouched, hshows, hbuilt.root_ne, hcount, hregs⟩)

theorem kexec_spec {file : Option (List UInt8)} :
    (kexec i file argv).Holds k (ExecPost own held k i file argv)
      (fun message => message = "freewalk: leaf" ∧
        ∃ vpn, Uncovered k.phys.mem (k.proc i).pagetable (k.proc i).sz vpn) := by
  refine (kexec_exact h hi hused hargs huser hlow).mono ?_ fun _ hpanic => ⟨hpanic.1, hpanic.2.1⟩
  rintro r k' (⟨hr, hsame, -⟩ | ⟨bytes, img, sp, argc, s2, s', root, hfile, -, himg, hr, hk', hnone,
    ht, hshows, hroot, -⟩)
  · exact Or.inl ⟨hr, hsame⟩
  · exact Or.inr ⟨bytes, img, sp, argc, s', root, hfile, himg, hr, hk', hnone, ht, hshows, hroot⟩

/-- Once the image of a file has been built, `kexec` succeeds unless the old page table
cannot be taken down. -/
theorem kexec_builds {root sz argc : Nat} {s2 : Phys} (hprogram : IsProgram file)
    (hbuilt : ExecBuilt k i file argv root (.ok (sz, sp, argc)) s2)
    (hcovered : ∀ vpn, ¬ Uncovered k.phys.mem (k.proc i).pagetable (k.proc i).sz vpn) :
    ∃ s', kexec i (some file) argv k =
        .ok argc (putSlot k i s' { k.proc i with pagetable := root, sz := sz }) ∧
      s2.freelist.length ≤ s'.freelist.length := by
  have hspec : (kexec i (some file) argv).Holds k (ExecExact own held k i (some file) argv)
      fun _ => False := (kexec_exact h hi hused hargs huser hlow).mono (fun _ _ hpost => hpost)
      fun _ hpanic => hpanic.2.1.elim hcovered
  obtain ⟨r, k', hrun, ⟨-, -, hfail⟩ | ⟨_, img, sp', argc', s2', s', root', ⟨⟩, hbuilt', -, hr, hk', -,
    -, -, -, hcount, -⟩⟩ := hspec.exists_ok
  · obtain ⟨_, hbad⟩ := hfail _ _ _ _ rfl hprogram hbuilt
    cases hbad
  · obtain ⟨rfl, hsame, rfl⟩ := hbuilt.unique hbuilt'
    cases hsame
    exact ⟨s', by rw [hrun, hr, hk'], hcount⟩

end Exec

end EAFITos
