/-
The page table of a process from its creation by `proc_pagetable` to its end in
`proc_freepagetable`.
-/
import EAFITos.Sysproc
import EAFITos.Freewalk

namespace EAFITos

open List Prog Option

variable {s s' : Phys} {root : Nat} {keep : Nat → Bool} {held : List Nat}

variable {vpn : Nat} {m : ByteMem} {p : Proc}

variable {pages rest : List Nat} {m' : ByteMem} {trapframe va : Nat}

theorem Good.perm {pages' : List Nat} (h : Good s pages) (hperm : pages'.Perm pages) :
    Good s pages' := ⟨hperm.nodup_iff.2 h.nodup, fun pg hpg => h.heap pg (hperm.mem_iff.1 hpg)⟩

theorem Good.left (h : Good s (pages ++ rest)) : Good s pages :=
  ⟨(nodup_append'.1 h.nodup).1, fun pg hpg => h.heap pg (mem_append_left _ hpg)⟩

/-- A page of zeros is a page table that maps nothing. -/
theorem emptyTable (hzero : ∀ i, i < 512 → pteAt m root i = 0) :
    tablePages m root = [root] ∧ (∀ vpn, vpn < 512 ^ 3 → leafPte m root vpn = none) ∧
      ∀ i, i < 512 → child m root i = none := by
  have hchild : ∀ i, i < 512 → child m root i = none := by
    intro i hi
    apply child_of_invalid
    rw [hzero i hi]
    decide
  have hone : ∀ x, x < 512 → node m root 1 x = none := by
    intro x hx
    exact hchild _ (Nat.mod_lt _ (by decide))
  refine ⟨?_, ?_, hchild⟩
  · apply perm_singleton.1
    refine Radix.tables_succ_perm.trans (List.Perm.cons root ?_)
    have hnil : ((List.range 512).flatMap fun i =>
        ((child m root i).map fun u => Radix.tables 512 (child m) u 1).getD []) = [] := by
      rw [flatMap_eq_nil_iff]
      intro i hi
      rw [hchild i (mem_range.1 hi), map_none, getD_none]
    rw [hnil]
  · intro vpn hvpn
    rw [leafPte, node_succ, hone _ (by omega), bind_none, bind_none]

/-- Taking the first free page when no page table is at hand. -/
theorem shift_take {r : Nat} (held : List Nat) (hfree : s.freelist = r :: rest)
    (hframe : Frame m' s.mem [r]) :
    Shift { s with freelist := rest, mem := m' } s (rest ++ (r :: held)) (s.freelist ++ held) := by
  refine ⟨?_, ?_, ⟨rfl, rfl, rfl⟩, rfl⟩
  · rw [hfree]
    exact perm_middle
  · apply hframe.mono
    rw [hfree]
    intro pg hpg
    rw [mem_singleton] at hpg
    rw [hpg]
    exact mem_cons_self

/-- The new page table of `uvmcreate`. -/
theorem uvmcreate_spec (keep : Nat → Bool) (hgood : Good s (s.freelist ++ held))
    (hbound : s.phystop ≤ 2 ^ 56) :
    uvmcreate.Holds s (fun r s' => (r = none ∧ s' = s ∧ s.freelist = []) ∨
        ∃ root, r = some root ∧ Sep s' root keep held ∧
          Shift s' s (ledger s' root keep held) (s.freelist ++ held) ∧
          (∀ vpn, vpn < 512 ^ 3 → leafPte s'.mem root vpn = none) ∧
          s.freelist.length = s'.freelist.length + 1) (fun _ => False) := by
  rw [uvmcreate, holds_bind, holds_kalloc]
  constructor
  · intro hnil
    rw [holds_pure]
    exact Or.inl ⟨rfl, rfl, hnil⟩
  · intro root rest hfree
    simp only [holds_bind, memset, holds_update, holds_pure, PGSIZE]
    right
    refine ⟨root, rfl, ?_⟩
    have hroot : root ∈ s.freelist := hfree ▸ mem_cons_self
    have hheap := hgood.heap root (mem_append_left _ hroot)
    have hshift := shift_take held hfree (fill_fill_frame s.mem 5 0 hheap.1)
    have hzero : ∀ i, i < 512 → pteAt ((s.mem.fill root 5 4096).fill root 0 4096) root i = 0 :=
      fun i hi => pteAt_fill_zero _ hi
    generalize (s.mem.fill root 5 4096).fill root 0 4096 = m' at hshift hzero
    obtain ⟨htables, hleaves, hchild⟩ := emptyTable hzero
    have howned : ownedLeaves m' root keep = [] := by
      rw [eq_nil_iff_forall_not_mem]
      intro pg hpg
      obtain ⟨vpn, pte, hvpn, _, hpte, _⟩ := mem_ownedLeaves_iff.1 hpg
      rw [hleaves vpn hvpn] at hpte
      exact absurd hpte (by simp)
    have hledger : ledger { s with freelist := rest, mem := m' } root keep held =
        rest ++ (root :: held) := by
      rw [ledger, htables, howned, nil_append, singleton_append]
    have hgood' := hshift.good hgood
    rw [← hledger] at hshift hgood'
    have hpair : Good { s with freelist := rest, mem := m' } (rest ++ [root]) := by
      rw [hledger, ← singleton_append, ← append_assoc] at hgood'
      exact hgood'.left
    refine ⟨⟨⟨⟨?_, ?_, hbound, ?_, ?_⟩, ?_⟩, hgood'⟩, hshift, hleaves, ?_⟩
    · rw [htables]
      exact hpair.nodup
    · rw [htables]
      exact hpair.heap
    · intro d x t i hd hx ht hi hvalid
      obtain rfl | rfl : d = 0 ∨ d = 1 := by omega
      · rw [← some.inj ht, hzero i hi] at hvalid
        exact absurd hvalid (by decide)
      · rw [node_succ, node_zero, bind_some, hchild _ (Nat.mod_lt _ (by decide))] at ht
        exact absurd ht (by simp)
    · exact fun i _ hi => hchild i hi
    · intro vpn pte hvpn hpte
      rw [hleaves vpn hvpn] at hpte
      exact absurd hpte (by simp)
    · rw [hfree]
      rfl

/-- Beyond the two fixed pages a user page table maps nothing. -/
theorem PtInv.leaf_high (hinv : PtInv s root) (hlo : 2 ^ 26 ≤ vpn) (hvpn : vpn < 512 ^ 3) :
    leafPte s.mem root vpn = none := by
  have hone : node s.mem root 1 (vpn / 512 / 512) = none := by
    exact hinv.high _ (by omega) (Nat.mod_lt _ (by decide))
  rw [leafPte, node_succ, hone, bind_none, bind_none]

/-- The entries for the trapframe and the trampoline. -/
def trapframePte (trapframe : Nat) : Nat := mkPte trapframe (PTE_R ||| PTE_W)
def trampolinePte (s : Phys) : Nat := mkPte s.trampoline (PTE_R ||| PTE_X)

/-- The two fixed mappings of a user page table. -/
structure Framed (s : Phys) (root trapframe : Nat) : Prop where
  trapframe : leafPte s.mem root TFVPN = some (trapframePte trapframe)
  trampoline : leafPte s.mem root (TFVPN + 1) = some (trampolinePte s)

theorem Framed.congr (h : Framed s root trapframe) (hbounds : SameBounds s' s)
    (hleaf : ∀ vpn, TFVPN ≤ vpn → vpn < 2 ^ 26 →
      leafPte s'.mem root vpn = leafPte s.mem root vpn) : Framed s' root trapframe := by
  refine ⟨?_, ?_⟩
  · rw [hleaf TFVPN (le_refl _) (by decide)]
    exact h.trapframe
  · rw [hleaf (TFVPN + 1) (by omega) (by decide), trampolinePte, hbounds.trampoline]
    exact h.trampoline

/-- A table that maps nothing but the pages at the top is freed by `uvmfree`. -/
theorem uvmfree_empty (hsep : Sep s root keep held)
    (hnone : ∀ vpn, vpn < 512 ^ 3 → leafPte s.mem root vpn = none) :
    (uvmfree root 0).Holds s
      (fun _ s' => Shift s' s (s'.freelist ++ held) (ledger s root keep held))
      (fun _ => False) := by
  have hzero : ∀ vpn, vpn < pgup 0 → leafPte s.mem root vpn ≠ none → keep vpn = true :=
    fun vpn hlt => absurd hlt (Nat.not_lt_zero vpn)
  refine (uvmfree_spec hsep (Nat.zero_le _) hzero).mono (fun _ _ h => h.2) ?_
  rintro message ⟨_, vpn, _, hvpn, hleaf⟩
  exact hleaf (hnone vpn hvpn)

theorem trampoline_vpn : TRAMPOLINE / 4096 = TFVPN + 1 := rfl

theorem trapframe_vpn : TRAPFRAME / 4096 = TFVPN := rfl

/-- Adding one of the fixed mappings. -/
theorem mappages_fixed {pa perm : Nat} (hsep : Sep s root keep held) (hva : va < MAXVA)
    (halign : va % 4096 = 0) (hpa : pa < 2 ^ 56) (hperm : perm < 1024)
    (hflags : hasFlag perm (PTE_R ||| PTE_W ||| PTE_X) = true) (hkeep : keep (va / 4096) = false)
    (hnone : leafPte s.mem root (va / 4096) = none) :
    (mappages root va PGSIZE pa perm).Holds s (fun r s' => Moved s' s root keep held held ∧
        s.freelist.length ≤ s'.freelist.length + 2 ∧
        ((r = 0 ∧ ∀ vpn, vpn < 512 ^ 3 → leafPte s'.mem root vpn =
            if vpn = va / 4096 then some (mkPte pa perm) else leafPte s.mem root vpn) ∨
          (r = -1 ∧ SameLeaves s' s root ∧ s.freelist.length < 2))) (fun _ => False) := by
  have hle := missing_le s.mem root va
  refine (mappages_page hsep.inv.toPtTree hva halign (by omega) hperm).mono ?_ ?_
  · rintro r s' ⟨_, taken, hgrown, ⟨hr, hlen, hleaf⟩ | ⟨hr, hnil, hlen, hleaves⟩⟩
    · have hcount : s.freelist.length = taken.length + s'.freelist.length := by
        rw [hgrown.free, length_append]
      exact ⟨(moved_mapShared hsep hkeep hperm hflags hgrown hleaf).1, by omega, Or.inl ⟨hr, hleaf⟩⟩
    · have hcount : s.freelist.length = taken.length := by
        rw [hgrown.free, hnil, append_nil]
      exact ⟨(moved_grow hsep hgrown hleaves).1, by omega, Or.inr ⟨hr, hleaves, by omega⟩⟩
  · rintro message ⟨_, hsome⟩
    rw [hnone] at hsome
    exact absurd hsome (by simp)

/-- A fresh user page table: the two fixed mappings and nothing else. -/
structure FreshTable (s' s : Phys) (root trapframe : Nat) (keep : Nat → Bool)
    (held : List Nat) : Prop where
  sep : Sep s' root keep held
  shift : Shift s' s (ledger s' root keep held) (s.freelist ++ held)
  framed : Framed s' root trapframe
  empty : ∀ vpn, vpn < TFVPN → leafPte s'.mem root vpn = none

theorem procPagetable_spec (hgood : Good s (s.freelist ++ held)) (hbound : s.phystop ≤ 2 ^ 56)
    (htramp : s.trampoline < 2 ^ 56) (htf : trapframe < 2 ^ 56)
    (hkeep : ∀ vpn, keep vpn = true → vpn < TFVPN) :
    (procPagetable trapframe).Holds s
      (fun r s' => (r = none ∧ Shift s' s (s'.freelist ++ held) (s.freelist ++ held) ∧
          s.freelist.length < 5) ∨
        ∃ root, r = some root ∧ FreshTable s' s root trapframe keep held ∧
          s.freelist.length ≤ s'.freelist.length + 5) (fun _ => False) := by
  have hkeeptf : keep (TRAPFRAME / 4096) = false := by
    rw [trapframe_vpn, Bool.eq_false_iff]
    exact fun h => absurd (hkeep _ h) (Nat.lt_irrefl _)
  have hkeeptramp : keep (TRAMPOLINE / 4096) = false := by
    rw [trampoline_vpn, Bool.eq_false_iff]
    exact fun h => absurd (hkeep _ h) (by omega)
  rw [procPagetable, holds_bind]
  refine (uvmcreate_spec keep hgood hbound).imp ?_
  rintro r s1 (⟨hr, hs1, hnil⟩ | ⟨root, hr, hsep1, hshift1, hnone1, hcount1⟩)
  · rw [hr, hs1]
    rw [holds_pure]
    exact Or.inl ⟨rfl, Shift.refl s _, by rw [hnil]; decide⟩
  rw [hr]
  simp only [holds_bind, holds_read]
  have htramp1 : s1.trampoline < 2 ^ 56 := by
    rw [hshift1.bounds.trampoline]
    exact htramp
  refine (mappages_fixed hsep1 (by decide) (by decide) htramp1 (by decide) (by decide)
    hkeeptramp (hnone1 _ (by decide))).imp ?_
  rintro r2 s2 ⟨hmoved2, hcount2, ⟨hr2, hleaf2⟩ | ⟨hr2, hleaves2, hfew⟩⟩
  · -- the trampoline is mapped; now the trapframe
    have hsep2 := hmoved2.sep hsep1
    have hnone2 : leafPte s2.mem root (TRAPFRAME / 4096) = none := by
      rw [hleaf2 _ (by decide), if_neg (by decide)]
      exact hnone1 _ (by decide)
    rw [hr2, if_neg (by decide), holds_bind]
    refine (mappages_fixed hsep2 (by decide) (by decide) htf (by decide) (by decide)
      hkeeptf hnone2).imp ?_
    rintro r3 s3 ⟨hmoved3, hcount3, ⟨hr3, hleaf3⟩ | ⟨hr3, hleaves3, hfew⟩⟩
    · rw [hr3, if_neg (by decide), holds_pure]
      refine Or.inr ⟨root, rfl, ⟨hmoved3.sep hsep2, ?_, ⟨?_, ?_⟩, ?_⟩, by omega⟩
      · exact hmoved3.shift.trans (hmoved2.shift.trans hshift1)
      · rw [hleaf3 _ (by decide), if_pos trapframe_vpn.symm]
        rfl
      · rw [hleaf3 _ (by decide), if_neg (by decide), hleaf2 _ (by decide),
          if_pos trampoline_vpn.symm, trampolinePte, hmoved3.shift.bounds.trampoline,
          hmoved2.shift.bounds.trampoline]
      · intro vpn hvpn
        have htfvpn : TFVPN = 2 ^ 26 - 2 := rfl
        rw [hleaf3 vpn (by omega), if_neg (by rw [trapframe_vpn]; omega),
          hleaf2 vpn (by omega), if_neg (by rw [trampoline_vpn]; omega)]
        exact hnone1 vpn (by omega)
    · -- no memory for the trapframe: undo
      have hsep3 := hmoved3.sep hsep2
      rw [hr3, if_pos (by decide), holds_bind]
      refine (uvmunmap_page hsep3 (by decide) (by decide)).imp ?_
      rintro _ s4 ⟨hmoved4, hun⟩
      rw [leafOwned, hkeeptramp, if_neg Bool.false_ne_true, nil_append] at hmoved4
      have hnone4 : ∀ vpn, vpn < 512 ^ 3 → leafPte s4.mem root vpn = none := by
        intro vpn hvpn
        by_cases heq : vpn = TRAMPOLINE / 4096
        · exact hun.leaf_in hvpn (by omega)
        · rw [hun.leaf_other hvpn (by omega), hleaves3 vpn hvpn, hleaf2 vpn hvpn, if_neg heq]
          exact hnone1 vpn hvpn
      rw [holds_bind]
      refine (uvmfree_empty (hmoved4.sep hsep3) hnone4).imp ?_
      intro _ s5 hshift5
      rw [holds_pure]
      exact Or.inl ⟨rfl, hshift5.trans (hmoved4.shift.trans
        (hmoved3.shift.trans (hmoved2.shift.trans hshift1))), by omega⟩
  · rw [hr2, if_pos (by decide), holds_bind]
    have hnone2 : ∀ vpn, vpn < 512 ^ 3 → leafPte s2.mem root vpn = none := by
      intro vpn hvpn
      rw [hleaves2 vpn hvpn]
      exact hnone1 vpn hvpn
    refine (uvmfree_empty (hmoved2.sep hsep1) hnone2).imp ?_
    intro _ s3 hshift3
    rw [holds_pure]
    exact Or.inl ⟨rfl, hshift3.trans (hmoved2.shift.trans hshift1), by omega⟩

/-- The virtual pages that `proc_freepagetable` unmaps without freeing. -/
def SHVPN : Nat := shmemva / 4096
def ROVPN : Nat := rova / 4096

theorem unmapValid_spec (hsep : Sep s root keep held) (halign : va % 4096 = 0) (hva : va < MAXVA) :
    (unmapValid root va).Holds s
      (fun _ s' => Moved s' s root keep (leafOwned s.mem root keep (va / 4096) ++ held) held ∧
        Unmapped s' s root keep (va / 4096) 1) (fun _ => False) := by
  have hnone : leafPte s.mem root (va / 4096) = none →
      Moved s s root keep (leafOwned s.mem root keep (va / 4096) ++ held) held ∧
        Unmapped s s root keep (va / 4096) 1 := by
    intro hleaf
    rw [leafOwned_of_none hleaf, nil_append]
    exact ⟨Moved.refl hsep.inv, unmapped_of_none hleaf⟩
  rw [unmapValid, holds_bind, holds_walk_noalloc hva]
  rcases pteSlot_cases s.mem root va with ⟨hslot, hleaf⟩ | ⟨t, _, hslot, hleaf⟩
  · rw [hslot]
    rw [holds_pure]
    exact hnone hleaf
  · rw [hslot]
    simp only [holds_bind, loadPte, holds_read, hasFlag_V, decide_eq_true_eq, holds_when]
    refine ⟨fun _ => uvmunmap_page hsep halign hva, fun hinvalid => ?_⟩
    rw [if_neg hinvalid] at hleaf
    exact hnone hleaf

theorem leafOwned_congr (h : leafPte m' root vpn = leafPte m root vpn) :
    leafOwned m' root keep vpn = leafOwned m root keep vpn := by
  rw [leafOwned, leafOwned, h]

theorem leafOwned_of_not_keep (h : keep vpn = false) :
    leafOwned m root keep vpn = [] := by
  rw [leafOwned, h, if_neg Bool.false_ne_true]

/-- The pages that `proc_freepagetable` unmaps and forgets. -/
def lostPages (m : ByteMem) (root : Nat) (keep : Nat → Bool) : List Nat :=
  leafOwned m root keep ROVPN ++ leafOwned m root keep SHVPN

/-- A page that the teardown of a table of size `sz` leaves mapped. -/
def Uncovered (m : ByteMem) (root sz vpn : Nat) : Prop :=
  pgup sz ≤ vpn ∧ vpn < TFVPN ∧ vpn ≠ SHVPN ∧ vpn ≠ ROVPN ∧ leafPte m root vpn ≠ none

/-- The end of a page table: everything below `sz` is freed, the two special pages
are forgotten, and any other page left mapped is a panic. -/
theorem procFreepagetable_spec {sz : Nat} (hsep : Sep s root keep held)
    (hsz : sz ≤ TRAPFRAME) (hkeep : ∀ vpn, keep vpn = true → vpn < TFVPN)
    (hcover : ∀ vpn, vpn < pgup sz → leafPte s.mem root vpn ≠ none → keep vpn = true) :
    (procFreepagetable root sz).Holds s (fun _ s' => (∀ vpn, ¬ Uncovered s.mem root sz vpn) ∧
        Shift s' s (s'.freelist ++ (lostPages s.mem root keep ++ held)) (ledger s root keep held))
      (fun message => message = "freewalk: leaf" ∧ ∃ vpn, Uncovered s.mem root sz vpn) := by
  have htfvpn : TFVPN = 2 ^ 26 - 2 := rfl
  have hsh : shmemva / 4096 = SHVPN := rfl
  have hro : rova / 4096 = ROVPN := rfl
  have hrolt : ROVPN < 2 ^ 26 - 2 := by decide
  have hshro : ROVPN ≠ SHVPN := by decide
  have hsz' : sz ≤ TFVPN * 4096 := hsz
  have hkeeptf : keep TFVPN = false := by
    rw [Bool.eq_false_iff]
    exact fun h => absurd (hkeep _ h) (Nat.lt_irrefl _)
  have hkeeptramp : keep (TFVPN + 1) = false := by
    rw [Bool.eq_false_iff]
    exact fun h => absurd (hkeep _ h) (by omega)
  rw [procFreepagetable, holds_bind]
  refine (unmapValid_spec hsep (by decide) (by decide)).mono ?_ nofun
  rintro _ s1 ⟨hmoved1, hun1⟩
  have hsep1 := hmoved1.sep hsep
  rw [holds_bind]
  refine (unmapValid_spec hsep1 (by decide) (by decide)).mono ?_ nofun
  rintro _ s2 ⟨hmoved2, hun2⟩
  rw [hro, leafOwned_congr (hun1.leaf_other (by omega) (by omega)), ← append_assoc] at hmoved2
  have hsep2 := hmoved2.sep hsep1
  rw [holds_bind]
  refine (uvmunmap_page hsep2 (by decide) (by decide)).mono ?_ nofun
  rintro _ s3 ⟨hmoved3, hun3⟩
  rw [trampoline_vpn] at hmoved3 hun3
  rw [leafOwned_of_not_keep hkeeptramp, nil_append] at hmoved3
  have hsep3 := hmoved3.sep hsep2
  rw [holds_bind]
  refine (uvmunmap_page hsep3 (by decide) (by decide)).mono ?_ nofun
  rintro _ s4 ⟨hmoved4, hun4⟩
  rw [trapframe_vpn] at hmoved4 hun4
  rw [leafOwned_of_not_keep hkeeptf, nil_append] at hmoved4
  have hsep4 := hmoved4.sep hsep3
  -- what is still mapped when `uvmfree` starts
  have hleft : ∀ vpn, vpn < 512 ^ 3 → leafPte s4.mem root vpn ≠ none →
      vpn < TFVPN ∧ vpn ≠ SHVPN ∧ vpn ≠ ROVPN ∧ leafPte s.mem root vpn ≠ none := by
    intro vpn hvpn hleaf
    have hnetf : vpn ≠ TFVPN := fun h => hleaf (hun4.leaf_in hvpn (by omega))
    rw [hun4.leaf_other hvpn (by omega)] at hleaf
    have hnetr : vpn ≠ TFVPN + 1 := fun h => hleaf (hun3.leaf_in hvpn (by omega))
    rw [hun3.leaf_other hvpn (by omega)] at hleaf
    have hnero : vpn ≠ ROVPN := fun h => hleaf (hun2.leaf_in hvpn (by omega))
    rw [hun2.leaf_other hvpn (by omega)] at hleaf
    have hnesh : vpn ≠ SHVPN := fun h => hleaf (hun1.leaf_in hvpn (by omega))
    rw [hun1.leaf_other hvpn (by omega)] at hleaf
    have hlow : vpn < 2 ^ 26 := by
      by_contra hhigh
      exact hleaf (hsep.inv.leaf_high (by omega) hvpn)
    exact ⟨by omega, hnesh, hnero, hleaf⟩
  have hback : ∀ vpn, vpn < TFVPN → vpn ≠ SHVPN → vpn ≠ ROVPN →
      leafPte s4.mem root vpn = leafPte s.mem root vpn := by
    intro vpn hlt hnesh hnero
    have hvpn : vpn < 512 ^ 3 := by omega
    rw [hun4.leaf_other hvpn (by omega), hun3.leaf_other hvpn (by omega),
      hun2.leaf_other hvpn (by omega), hun1.leaf_other hvpn (by omega)]
  refine (uvmfree_spec hsep4 (hsz'.trans (by decide)) (fun vpn hlt hleaf =>
    hcover vpn hlt (hleft vpn (by have := pgup_le hsz'; omega) hleaf).2.2.2)).mono ?_ ?_
  · rintro _ s5 ⟨hnone, hshift⟩
    refine ⟨?_, hshift.trans (hmoved4.shift.trans (hmoved3.shift.trans
      (hmoved2.shift.trans hmoved1.shift)))⟩
    rintro vpn ⟨hlo, hlt, hnesh, hnero, hleaf⟩
    rw [← hback vpn hlt hnesh hnero] at hleaf
    exact hleaf (hnone vpn hlo (by omega))
  · rintro message ⟨hmessage, vpn, hlo, hvpn, hleaf⟩
    obtain ⟨hlt, hnesh, hnero, hleaf'⟩ := hleft vpn hvpn hleaf
    exact ⟨hmessage, vpn, hlo, hlt, hnesh, hnero, hleaf'⟩

/-- The region of a process is where `mapzero` puts it. -/
structure RegionOk (p : Proc) : Prop where
  start : p.hasRegion = true → p.region.start = regionStart
  size : p.hasRegion = true → p.region.size % 4096 = 0
  fits : p.hasRegion = true → p.region.start + p.region.size ≤ TRAPFRAME

/-- The virtual page lies in the region of the process. -/
def RegionVpn (p : Proc) (vpn : Nat) : Prop :=
  p.hasRegion = true ∧ p.region.start / 4096 ≤ vpn ∧
    vpn < p.region.start / 4096 + p.region.size / 4096

theorem RegionVpn.bounds (hregion : RegionOk p) (h : RegionVpn p vpn) :
    0x70000 ≤ vpn ∧ vpn < TFVPN := by
  obtain ⟨hhas, hlo, hhi⟩ := h
  have hstart := hregion.start hhas
  have hfits : p.region.start + p.region.size ≤ TFVPN * 4096 := hregion.fits hhas
  have hconst : regionStart = 0x70000 * 4096 := rfl
  omega

/-- A page that the teardown of a process leaves mapped. -/
def Stranded (m : ByteMem) (p : Proc) (vpn : Nat) : Prop :=
  Uncovered m p.pagetable p.sz vpn ∧ ¬ RegionVpn p vpn

/-- Releasing the memory of a process that has a page table and a trapframe. -/
theorem freeprocMem_spec (hsep : Sep s p.pagetable keep (p.trapframe :: held))
    (hpt : p.pagetable ≠ 0) (htf : p.trapframe ≠ 0) (hsz : p.sz ≤ TRAPFRAME)
    (hregion : RegionOk p) (hkeep : ∀ vpn, keep vpn = true → vpn < TFVPN)
    (hcover : ∀ vpn, vpn < pgup p.sz ∨ RegionVpn p vpn →
      leafPte s.mem p.pagetable vpn ≠ none → keep vpn = true) :
    (freeprocMem p).Holds s (fun _ s' => (∀ vpn, ¬ Stranded s.mem p vpn) ∧
        Shift s' s (s'.freelist ++ (lostPages s.mem p.pagetable keep ++ held))
          (ledger s p.pagetable keep (p.trapframe :: held)))
      (fun message => message = "freewalk: leaf" ∧ ∃ vpn, Stranded s.mem p vpn) := by
  have htfvpn : TFVPN = 2 ^ 26 - 2 := rfl
  have hshlt : SHVPN < 0x70000 := by decide
  have hrolt : ROVPN < 0x70000 := by decide
  rw [freeprocMem, holds_bind, holds_when]
  refine ⟨fun _ => ?_, fun h => absurd htf h⟩
  refine (kfree_held hsep).mono ?_ nofun
  rintro _ s1 ⟨hmoved1, hview1⟩
  have hsep1 := hmoved1.sep hsep
  have hleaf1 := hview1.leaves
  -- the page table, once the region has been unmapped
  have hrest : ∀ s2, Moved s2 s1 p.pagetable keep held held →
      (∀ vpn, vpn < 512 ^ 3 → ¬ RegionVpn p vpn →
        leafPte s2.mem p.pagetable vpn = leafPte s1.mem p.pagetable vpn) →
      (∀ vpn, vpn < 512 ^ 3 → RegionVpn p vpn → leafPte s2.mem p.pagetable vpn = none) →
      (procFreepagetable p.pagetable p.sz).Holds s2 (fun _ s' => (∀ vpn, ¬ Stranded s.mem p vpn) ∧
          Shift s' s (s'.freelist ++ (lostPages s.mem p.pagetable keep ++ held))
            (ledger s p.pagetable keep (p.trapframe :: held)))
        (fun message => message = "freewalk: leaf" ∧ ∃ vpn, Stranded s.mem p vpn) := by
    intro s2 hmoved2 hother hgone
    have hsame : ∀ vpn, vpn < 512 ^ 3 → ¬ RegionVpn p vpn →
        leafPte s2.mem p.pagetable vpn = leafPte s.mem p.pagetable vpn :=
      fun vpn hvpn hout => (hother vpn hvpn hout).trans (hleaf1 vpn hvpn)
    have hlow : ∀ vpn, vpn < 0x70000 →
        leafPte s2.mem p.pagetable vpn = leafPte s.mem p.pagetable vpn :=
      fun vpn hlt => hsame vpn (by omega) fun h => by
        have := h.bounds hregion
        omega
    have hlost : lostPages s2.mem p.pagetable keep = lostPages s.mem p.pagetable keep := by
      rw [lostPages, lostPages, leafOwned_congr (hlow _ hrolt), leafOwned_congr (hlow _ hshlt)]
    have hsz' : p.sz ≤ TFVPN * 4096 := hsz
    have hpages := pgup_le hsz'
    have hiff : ∀ vpn, Uncovered s2.mem p.pagetable p.sz vpn ↔ Stranded s.mem p vpn := by
      intro vpn
      constructor
      · rintro ⟨hlo, hlt, hnesh, hnero, hleaf⟩
        have hout : ¬ RegionVpn p vpn := fun h => hleaf (hgone vpn (by omega) h)
        rw [hsame vpn (by omega) hout] at hleaf
        exact ⟨⟨hlo, hlt, hnesh, hnero, hleaf⟩, hout⟩
      · rintro ⟨⟨hlo, hlt, hnesh, hnero, hleaf⟩, hout⟩
        rw [← hsame vpn (by omega) hout] at hleaf
        exact ⟨hlo, hlt, hnesh, hnero, hleaf⟩
    refine (procFreepagetable_spec (hmoved2.sep hsep1) hsz hkeep ?_).mono ?_ ?_
    · intro vpn hlt hleaf
      have hout : ¬ RegionVpn p vpn := fun h => hleaf (hgone vpn (by omega) h)
      rw [hsame vpn (by omega) hout] at hleaf
      exact hcover vpn (Or.inl hlt) hleaf
    · rintro _ s3 ⟨hnone, hshift⟩
      rw [hlost] at hshift
      exact ⟨fun vpn h => hnone vpn ((hiff vpn).2 h),
        hshift.trans (hmoved2.shift.trans hmoved1.shift)⟩
    · rintro message ⟨hmessage, vpn, h⟩
      exact ⟨hmessage, vpn, (hiff vpn).1 h⟩
  rw [holds_when]
  refine ⟨fun _ => ?_, fun h => absurd hpt h⟩
  rw [holds_bind, holds_when]
  constructor
  · intro hhas
    have hstart : p.region.start % 4096 = 0 := by
      rw [hregion.start hhas]
      decide
    have hfits : p.region.start + p.region.size ≤ TFVPN * 4096 := hregion.fits hhas
    have hsize := hregion.size hhas
    have hpages : p.region.size / PGSIZE = p.region.size / 4096 := rfl
    have hin : ∀ vpn, RegionVpn p vpn ↔ p.region.start / 4096 ≤ vpn ∧
        vpn < p.region.start / 4096 + p.region.size / 4096 :=
      fun vpn => ⟨fun h => h.2, fun h => ⟨hhas, h⟩⟩
    refine (uvmunmap_free hsep1 hstart (by omega) ?_).mono ?_ nofun
    · intro vpn hlo hhi hleaf
      rw [hleaf1 vpn (by omega)] at hleaf
      exact hcover vpn (Or.inr ((hin vpn).2 ⟨hlo, hhi⟩)) hleaf
    · rintro _ s2 ⟨hmoved2, hun, -⟩
      refine hrest s2 hmoved2 ?_ ?_
      · intro vpn hvpn hout
        rw [hin] at hout
        exact hun.leaf_other hvpn hout
      · intro vpn hvpn h
        exact hun.leaf_in hvpn ((hin vpn).1 h)
  · intro hno
    refine hrest s1 (Moved.refl hsep1.inv) (fun _ _ _ => rfl) ?_
    exact fun vpn _ h => absurd h.1 hno

/-- Giving back a page when no page table is at hand. -/
theorem kfree_loose {pg : Nat} (hgood : Good s (s.freelist ++ (pg :: held))) :
    (kfree pg).Holds s (fun _ s' => Shift s' s (s'.freelist ++ held) (s.freelist ++ (pg :: held)))
      (fun _ => False) := by
  have hheap := hgood.heap pg (mem_append_right _ mem_cons_self)
  have hnotin : pg ∉ s.freelist := fun h =>
    (nodup_append'.1 hgood.nodup).2.2 h mem_cons_self
  have hcontains : s.freelist.contains pg = false := by simpa using hnotin
  rw [holds_kfree hheap]
  refine ⟨perm_middle.symm, ?_, ⟨rfl, rfl, rfl⟩, ?_⟩
  · apply (fill_frame s.mem 1 hheap.1).mono
    intro x hx
    rw [mem_singleton.1 hx]
    exact mem_append_right _ mem_cons_self
  · rw [hcontains, Bool.or_false]

/-- Releasing a process that never got its page table. -/
theorem freeprocMem_unmapped (hpt : p.pagetable = 0) (hgood : Good s (s.freelist ++
      ((if p.trapframe = 0 then [] else [p.trapframe]) ++ held))) :
    (freeprocMem p).Holds s (fun _ s' => Shift s' s (s'.freelist ++ held)
        (s.freelist ++ ((if p.trapframe = 0 then [] else [p.trapframe]) ++ held)))
      (fun _ => False) := by
  rw [freeprocMem, holds_bind, holds_when]
  constructor
  · intro htf
    rw [if_neg htf, singleton_append] at hgood ⊢
    refine (kfree_loose hgood).imp fun _ s' hshift => ?_
    rw [holds_when]
    exact ⟨fun h => absurd hpt h, fun _ => hshift⟩
  · intro htf
    rw [not_not] at htf
    rw [if_pos htf, nil_append, holds_when]
    exact ⟨fun h => absurd hpt h, fun _ => Shift.refl s _⟩

end EAFITos
