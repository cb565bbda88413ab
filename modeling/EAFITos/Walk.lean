/-
What `walk` and `mappages` do to a page table: the pages they take from the
free list, the entry they reach, and the mapping they add.
-/
import EAFITos.PageTable

namespace EAFITos

open List Prog Option

variable {root va t level : Nat} {s s' : Phys} {m : ByteMem}

variable {taken : List Nat} {pagetable vpn pa perm : Nat}

/-- How many tables `walk` must add to reach the entry for `va`. -/
def missing (m : ByteMem) (root va : Nat) : Nat :=
  (if node m root 1 (va / 2 ^ 30) = none then 1 else 0) +
    (if node m root 2 (va / 2 ^ 21) = none then 1 else 0)

theorem missing_congr {m' : ByteMem} (hsame : ∀ pg ∈ tablePages m root, SamePage m' m pg)
    (hva : va < MAXVA) :
    missing m' root va = missing m root va := by
  have hmax : MAXVA = 2 ^ 38 := rfl
  rw [missing, missing, node_congr hsame (by decide) (by omega),
    node_congr hsame (by decide) (by omega)]

/-- The lookups of `root` are the same in both states. -/
def SameLeaves (s' s : Phys) (root : Nat) : Prop :=
  ∀ vpn, vpn < 512 ^ 3 → leafPte s'.mem root vpn = leafPte s.mem root vpn

/-- The pages `taken` have moved from the free list into the tables of `root`,
and no page outside these tables has changed. -/
structure Grown (s' s : Phys) (root : Nat) (taken : List Nat) : Prop where
  inv : PtTree s' root
  free : s.freelist = taken ++ s'.freelist
  tables : (tablePages s'.mem root).Perm (taken ++ tablePages s.mem root)
  frame : Frame s'.mem s.mem (taken ++ tablePages s.mem root)
  bounds : SameBounds s' s
  refreed : s'.refreed = s.refreed

theorem Grown.refl (hinv : PtTree s root) :
    Grown s s root [] where
  inv := hinv
  free := (nil_append _).symm
  tables := by rw [nil_append]
  frame := Frame.refl _ _
  bounds := SameBounds.refl s
  refreed := rfl

theorem Grown.trans {s'' : Phys} {taken' : List Nat} (h' : Grown s'' s' root taken')
    (h : Grown s' s root taken) :
    Grown s'' s root (taken ++ taken') where
  inv := h'.inv
  free := by rw [h.free, h'.free, append_assoc]
  tables := by
    have hmove := h'.tables.trans (List.Perm.append_left taken' h.tables)
    refine hmove.trans ?_
    rw [← append_assoc]
    exact List.Perm.append_right _ perm_append_comm
  frame := by
    have hsub : taken' ++ tablePages s'.mem root ⊆ taken ++ taken' ++ tablePages s.mem root := by
      intro pg hpg
      simp only [mem_append, h.tables.mem_iff] at hpg ⊢
      tauto
    have hsub' : taken ++ tablePages s.mem root ⊆ taken ++ taken' ++ tablePages s.mem root := by
      intro pg hpg
      simp only [mem_append] at hpg ⊢
      tauto
    exact (h'.frame.mono hsub).trans (h.frame.mono hsub')
  bounds := h'.bounds.trans h.bounds
  refreed := h'.refreed.trans h.refreed

/-- The result of `walk` with allocation from a state `s`. -/
def WalkPost (s : Phys) (root va : Nat) (r : Option Nat) (s' : Phys) : Prop :=
  ∃ taken, Grown s' s root taken ∧ SameLeaves s' s root ∧
    ((∃ t, node s'.mem root 2 (va / 2 ^ 21) = some t ∧
        r = some (t + 8 * PX 0 va) ∧ taken.length = missing s.mem root va) ∨
      (r = none ∧ s'.freelist = [] ∧ taken.length < missing s.mem root va))

/-- A table at depth 2 has its parent at depth 1. -/
theorem node_one_of_two (h : node m root 2 (va / 2 ^ 21) = some t) :
    ∃ u, node m root 1 (va / 2 ^ 30) = some u := by
  have hdigits : va / 2 ^ 21 / 512 = va / 2 ^ 30 := div_pow_succ va 21
  rw [node_succ, hdigits] at h
  cases hnode : node m root 1 (va / 2 ^ 30) with
  | none => rw [hnode, bind_none] at h; exact absurd h (by simp)
  | some u => exact ⟨u, rfl⟩

theorem missing_eq_zero (h : node m root 2 (va / 2 ^ 21) = some t) : missing m root va = 0 := by
  obtain ⟨u, hu⟩ := node_one_of_two h
  rw [missing, h, hu]
  simp

theorem tableLinked_path {new : Nat} {rest : List Nat} (hinv : PtTree s root) (hva : va < MAXVA)
    (hlevel : level < 2) (hat : node s.mem root (1 - level) (va / 2 ^ (12 + 9 * (level + 2))) =
      some pagetable) (hempty : child s.mem pagetable (PX (level + 1) va) = none)
    (hfree : s.freelist = new :: rest) (hs' : s' = { s with
      freelist := rest
      mem := linkMem s.mem pagetable (PX (level + 1) va) new }) :
    TableLinked s' s root (2 - level) (va / 2 ^ (12 + 9 * (level + 1))) new := by
  have hva' : va < 2 ^ 38 := hva
  have hkey : va / 2 ^ (12 + 9 * (level + 2)) * 512 + PX (level + 1) va =
      va / 2 ^ (12 + 9 * (level + 1)) := by
    have hexp : 12 + 9 * (level + 2) = 12 + 9 * (level + 1) + 9 := by omega
    rw [hexp, ← div_pow_succ, PX]
    exact Nat.div_add_mod' _ 512
  have hy : va / 2 ^ (12 + 9 * (level + 2)) < 512 ^ (1 - level) := by
    obtain h | h : level = 0 ∨ level = 1 := by omega
    · subst h
      simp only [Nat.reduceMul, Nat.reduceAdd]
      omega
    · subst h
      simp only [Nat.reduceMul, Nat.reduceAdd]
      omega
  have hlow : 1 - level = 0 → PX (level + 1) va < 256 := by
    intro h
    obtain rfl : level = 1 := by omega
    simp only [PX, Nat.reduceMul, Nat.reduceAdd]
    omega
  have hdepth : 1 - level + 1 = 2 - level := by omega
  have hlinked := tableLinked_linkMem hinv hfree (by omega) hy (PX_lt _ _) hat hempty hlow
  rwa [hkey, hdepth, ← hs'] at hlinked

/-- The index of `va` at a level of the tables is in range. -/
theorem path_lt (hva : va < MAXVA) (hlevel : level < 2) :
    va / 2 ^ (12 + 9 * (level + 1)) < 512 ^ (2 - level) := by
  have hva' : va < 2 ^ 38 := hva
  obtain h | h : level = 0 ∨ level = 1 := by omega
  · subst h
    simp only [Nat.reduceMul, Nat.reduceAdd, Nat.reduceSub]
    omega
  · subst h
    simp only [Nat.reduceMul, Nat.reduceAdd, Nat.reduceSub]
    omega

/-- With the next table linked, one table fewer is missing. -/
theorem grown_link {new : Nat} {rest : List Nat} (hinv : PtTree s root) (hva : va < MAXVA)
    (hlevel : level < 2) (hat : node s.mem root (1 - level) (va / 2 ^ (12 + 9 * (level + 2))) =
      some pagetable) (hempty : child s.mem pagetable (PX (level + 1) va) = none)
    (hfree : s.freelist = new :: rest) (hs' : s' = { s with
      freelist := rest
      mem := linkMem s.mem pagetable (PX (level + 1) va) new }) :
    Grown s' s root [new] ∧ SameLeaves s' s root ∧
      node s'.mem root (2 - level) (va / 2 ^ (12 + 9 * (level + 1))) = some new ∧
      missing s.mem root va = missing s'.mem root va + 1 := by
  have hva' : va < 2 ^ 38 := hva
  have hlinked := tableLinked_path hinv hva hlevel hat hempty hfree hs'
  have hnew : node s'.mem root (2 - level) (va / 2 ^ (12 + 9 * (level + 1))) =
      some new := by
    rw [hlinked.node_eq _ _ (by omega) (path_lt hva hlevel), if_pos ⟨rfl, rfl⟩]
  have hhole := node_step hlevel hat
  rw [hempty] at hhole
  refine ⟨⟨hlinked.inv, ?_, hlinked.tables_perm, hlinked.frame, ?_, ?_⟩, hlinked.leaf_eq, hnew, ?_⟩
  · rw [hfree, hs']
    rfl
  · rw [hs']
    exact ⟨rfl, rfl, rfl⟩
  · rw [hs']
  · have hlt1 : va / 2 ^ 30 < 512 ^ 1 := by omega
    have hlt2 : va / 2 ^ 21 < 512 ^ 2 := by omega
    have hn1 := hlinked.node_eq 1 _ (by decide) hlt1
    have hn2 := hlinked.node_eq 2 _ (by decide) hlt2
    obtain h | h : level = 0 ∨ level = 1 := by omega
    · subst h
      simp only [Nat.reduceMul, Nat.reduceAdd, Nat.reduceSub] at hat hhole hn1 hn2
      rw [missing, missing, hn1, hn2, hat, hhole]
      simp
    · subst h
      simp only [Nat.reduceMul, Nat.reduceAdd, Nat.reduceSub] at hat hhole hn1 hn2
      have hbelow : node s.mem root 2 (va / 2 ^ 21) = none := by
        have hdigits : va / 2 ^ 21 / 512 = va / 2 ^ 30 := div_pow_succ va 21
        rw [node_succ, hdigits, hhole, bind_none]
      rw [missing, missing, hn1, hn2, hhole, hbelow]
      simp

theorem missing_pos (hlevel : level < 2)
    (hhole : node m root (2 - level) (va / 2 ^ (12 + 9 * (level + 1))) = none) :
    0 < missing m root va := by
  obtain h | h : level = 0 ∨ level = 1 := by omega
  · subst h
    simp only [Nat.reduceMul, Nat.reduceAdd, Nat.reduceSub] at hhole
    rw [missing, hhole]
    simp
  · subst h
    simp only [Nat.reduceMul, Nat.reduceAdd, Nat.reduceSub] at hhole
    rw [missing, hhole]
    simp

/-- The walk with allocation, by induction on the levels still to go: each
missing table is taken from the free list and linked in. -/
theorem walkLoop_alloc (hva : va < MAXVA) (level : Nat) (hlevel : level ≤ 2)
    (hinv : PtTree s root) (hat : node s.mem root (2 - level) (va / 2 ^ (12 + 9 * (level + 1))) =
      some pagetable) :
    (walkLoop va true level pagetable).Holds s (WalkPost s root va) (fun _ => False) := by
  induction level generalizing s pagetable with
  | zero =>
    have hnode : node s.mem root 2 (va / 2 ^ 21) = some pagetable := hat
    rw [walkLoop, holds_pure]
    exact ⟨[], Grown.refl hinv, fun _ _ => rfl,
      Or.inl ⟨pagetable, hnode, rfl, (missing_eq_zero hnode).symm⟩⟩
  | succ level ih =>
    have hdepth : 2 - (level + 1) = 1 - level := by omega
    rw [hdepth] at hat
    have hstep := node_step (by omega) hat
    have hpte : s.mem.loadLE (pagetable + 8 * PX (level + 1) va) 8 =
        pteAt s.mem pagetable (PX (level + 1) va) := rfl
    rw [walkLoop, holds_bind, loadPte, holds_read, hpte]
    simp only [hasFlag_V, decide_eq_true_eq, holds_ite, Bool.true_eq_false,
      false_implies, not_false_eq_true, true_implies, true_and, holds_bind]
    constructor
    · intro hvalid
      rw [child_of_valid hvalid] at hstep
      exact ih (by omega) hinv hstep
    · intro hinvalid
      have hempty := child_of_invalid hinvalid
      rw [hempty] at hstep
      rw [holds_kalloc]
      constructor
      · -- no page left: the walk gives up
        intro hnil
        rw [holds_pure]
        exact ⟨[], Grown.refl hinv, fun _ _ => rfl,
          Or.inr ⟨rfl, hnil, missing_pos (by omega) hstep⟩⟩
      · intro new rest hfree
        simp only [holds_bind, memset, holds_update, storePte, PGSIZE]
        obtain ⟨hgrown, hleaves, hnode, hcount⟩ :=
          grown_link hinv hva (by omega) hat hempty hfree rfl
        refine (ih (by omega) hgrown.inv hnode).imp ?_
        rintro r s' ⟨taken, hgrown', hleaves', hresult⟩
        refine ⟨[new] ++ taken, hgrown'.trans hgrown,
          fun vpn hvpn => (hleaves' vpn hvpn).trans (hleaves vpn hvpn), ?_⟩
        rw [hcount, length_append, length_singleton]
        rcases hresult with ⟨t, ht, hr, hlen⟩ | ⟨hr, hnil, hlen⟩
        · exact Or.inl ⟨t, ht, hr, by omega⟩
        · exact Or.inr ⟨hr, hnil, by omega⟩

theorem walk_alloc (hinv : PtTree s root) (hva : va < MAXVA) :
    (walk root va true).Holds s (WalkPost s root va) (fun _ => False) := by
  have hin : ¬ va ≥ MAXVA := by omega
  rw [walk, if_neg hin]
  exact walkLoop_alloc hva 2 (le_refl 2) hinv (node_zero s.mem root _)

/-- A valid entry found where its table exists. -/
theorem leafPte_of_node (ht : node m root 2 (va / 2 ^ 21) = some t) :
    leafPte m root (va / 4096) =
      if pteAt m t (PX 0 va) % 2 = 1 then some (pteAt m t (PX 0 va)) else none := by
  have hdigits : va / 4096 / 512 = va / 2 ^ 21 := div_pow_succ va 12
  rw [leafPte, hdigits, ht, bind_some, PX_zero]

theorem leafPte_of_no_node (ht : node m root 2 (va / 2 ^ 21) = none) :
    leafPte m root (va / 4096) = none := by
  have hdigits : va / 4096 / 512 = va / 2 ^ 21 := div_pow_succ va 12
  rw [leafPte, hdigits, ht, bind_none]

theorem missing_eq_zero_of_leaf {pte : Nat} (h : leafPte m root (va / 4096) = some pte) :
    missing m root va = 0 := by
  cases ht : node m root 2 (va / 2 ^ 21) with
  | none => rw [leafPte_of_no_node ht] at h; exact absurd h (by simp)
  | some t => exact missing_eq_zero ht

/-- Storing a leaf entry of the right shape keeps a page table well formed. -/
theorem PtTree.storeLeaf {v : Nat} (hinv : PtTree s root) (hvpn : vpn < 512 ^ 3)
    (ht : node s.mem root 2 (vpn / 512) = some t) (hv : v < 256 ^ 8) :
    PtTree { s with mem := s.mem.storeLE (t + 8 * (vpn % 512)) 8 v } root := by
  have hstored := leafStored_storeLE hinv hvpn ht hv
  have hi : vpn % 512 < 512 := Nat.mod_lt _ (by decide)
  have hlt : vpn / 512 < 512 ^ 2 := by omega
  have htable := node_mem_tablePages (le_refl 2) hlt ht
  have htalign := (hinv.table_heap htable).1
  refine ⟨?_, ?_, hinv.bound, ?_, ?_⟩
  · rw [hstored.tables_eq]
    exact hinv.nodup
  · rw [hstored.tables_eq]
    exact hinv.heap
  · intro d x u i hd hx hu hiu hvalid
    change pteAt (s.mem.storeLE (t + 8 * (vpn % 512)) 8 v) u i % 2 = 1 at hvalid
    change PTE_FLAGS (pteAt (s.mem.storeLE (t + 8 * (vpn % 512)) 8 v) u i) = 1
    change node (s.mem.storeLE (t + 8 * (vpn % 512)) 8 v) root d x = some u at hu
    rw [hstored.node_eq d x (by omega) hx] at hu
    have hmem := node_mem_tablePages (by omega) hx hu
    have hentry : ¬ (u = t ∧ i = vpn % 512) := by
      rintro ⟨rfl, _⟩
      have hdepth := (hinv.distinct d 2 x _ u (by omega) (le_refl 2) hx hlt hu ht).1
      omega
    rw [pteAt_store_other s.mem htalign (hinv.table_heap hmem).1 hi hiu hentry] at hvalid ⊢
    exact hinv.interior d x u i hd hx hu hiu hvalid
  · intro i hlo hi'
    have hentry : ¬ (root = t ∧ i = vpn % 512) := by
      rintro ⟨rfl, _⟩
      have hdepth := (hinv.distinct 0 2 0 _ root (by decide) (le_refl 2) (by decide) hlt
        (node_zero s.mem root 0) ht).1
      omega
    change child (s.mem.storeLE (t + 8 * (vpn % 512)) 8 v) root i = none
    rw [child, pteAt_store_other s.mem htalign
      (hinv.table_heap (root_mem_tablePages s.mem root)).1 hi hi' hentry]
    exact hinv.high i hlo hi'

theorem PtInv.storeLeaf {v : Nat} (hinv : PtInv s root) (hvpn : vpn < 512 ^ 3)
    (ht : node s.mem root 2 (vpn / 512) = some t) (hv : v < 256 ^ 8)
    (hflags : v % 2 = 1 → hasFlag v (PTE_R ||| PTE_W ||| PTE_X) = true) :
    PtInv { s with mem := s.mem.storeLE (t + 8 * (vpn % 512)) 8 v } root := by
  have hstored := leafStored_storeLE hinv.toPtTree hvpn ht hv
  refine ⟨hinv.toPtTree.storeLeaf hvpn ht hv, ?_⟩
  intro vpn' pte hvpn' hpte
  change leafPte (s.mem.storeLE (t + 8 * (vpn % 512)) 8 v) root vpn' = some pte at hpte
  rw [hstored.leaf_eq vpn' hvpn'] at hpte
  by_cases heq : vpn' = vpn
  · rw [if_pos heq] at hpte
    by_cases hodd : v % 2 = 1
    · rw [if_pos hodd] at hpte
      obtain rfl := some.inj hpte
      exact hflags hodd
    · rw [if_neg hodd] at hpte
      exact absurd hpte (by simp)
  · rw [if_neg heq] at hpte
    exact hinv.leaf vpn' pte hvpn' hpte

/-- Tables that have grown without a change of the mappings. -/
theorem Grown.ptInv (h : Grown s' s root taken) (hinv : PtInv s root)
    (hleaves : SameLeaves s' s root) : PtInv s' root := by
  refine ⟨h.inv, fun vpn pte hvpn hpte => ?_⟩
  rw [hleaves vpn hvpn] at hpte
  exact hinv.leaf vpn pte hvpn hpte

/-- Tables that have grown by one mapping. -/
theorem Grown.ptInv_map (h : Grown s' s root taken) (hinv : PtInv s root) (hperm : perm < 1024)
    (hflags : hasFlag perm (PTE_R ||| PTE_W ||| PTE_X) = true)
    (hleaf : ∀ vpn', vpn' < 512 ^ 3 → leafPte s'.mem root vpn' =
      if vpn' = vpn then some (mkPte pa perm) else leafPte s.mem root vpn') :
    PtInv s' root := by
  refine ⟨h.inv, fun vpn' pte hvpn' hpte => ?_⟩
  rw [hleaf vpn' hvpn'] at hpte
  split at hpte
  · obtain rfl := some.inj hpte
    rw [hasFlag_mkPte hperm (by decide), hflags]
    rfl
  · exact hinv.leaf vpn' pte hvpn' hpte

theorem holds_mappagesLoop_succ {n : Nat} {post : Int → Phys → Prop} {onPanic : String → Prop}
    (hinv : PtTree s root) (hva : va < MAXVA) (hpa : pa < 2 ^ 64) (hperm : perm < 1024)
    (hremap : (leafPte s.mem root (va / 4096)).isSome → onPanic "mappages: remap")
    (hfull : ∀ s1 taken, leafPte s.mem root (va / 4096) = none → Grown s1 s root taken →
      s1.freelist = [] → taken.length < missing s.mem root va → SameLeaves s1 s root → post (-1) s1)
    (hnext : ∀ s1 taken, leafPte s.mem root (va / 4096) = none → Grown s1 s root taken →
      taken.length = missing s.mem root va → (∀ vpn, vpn < 512 ^ 3 → leafPte s1.mem root vpn =
        if vpn = va / 4096 then some (mkPte pa perm) else leafPte s.mem root vpn) →
      (mappagesLoop root perm n (va + PGSIZE) (pa + PGSIZE)).Holds s1 post onPanic) :
    (mappagesLoop root perm (n + 1) va pa).Holds s post onPanic := by
  have hva' : va < 2 ^ 38 := hva
  have hvpn : va / 4096 < 512 ^ 3 := by omega
  have hdigits : va / 4096 / 512 = va / 2 ^ 21 := div_pow_succ va 12
  rw [mappagesLoop, holds_bind]
  refine (walk_alloc hinv hva).mono ?_ nofun
  rintro r s1 ⟨taken, hgrown, hleaves, ⟨t, ht, hr, hlen⟩ | ⟨hr, hnil, hlen⟩⟩
  · have hleaf := leafPte_of_node ht
    have hpte : s1.mem.loadLE (t + 8 * PX 0 va) 8 = pteAt s1.mem t (PX 0 va) := rfl
    rw [hr]
    simp only [holds_bind, loadPte, holds_read, hpte, hasFlag_V,
      decide_eq_true_eq, holds_ite, holds_panic, storePte, holds_update]
    constructor
    · intro hvalid
      rw [if_pos hvalid] at hleaf
      apply hremap
      rw [← hleaves _ hvpn, hleaf]
      rfl
    · intro hinvalid
      rw [if_neg hinvalid] at hleaf
      have hv := mkPte_lt hpa hperm
      rw [← hdigits] at ht
      have hstored := leafStored_storeLE hgrown.inv hvpn ht hv
      rw [if_pos mkPte_mod_two] at hstored
      refine hnext _ taken ?_ ⟨hgrown.inv.storeLeaf hvpn ht hv, hgrown.free, ?_, ?_,
        hgrown.bounds.setMem _, hgrown.refreed⟩ hlen ?_
      · rw [← hleaves _ hvpn, hleaf]
      · rw [PX_zero, hstored.tables_eq]
        exact hgrown.tables
      · have hsub : tablePages s1.mem root ⊆ taken ++ tablePages s.mem root := hgrown.tables.subset
        exact (hstored.frame.mono hsub).trans hgrown.frame
      · intro vpn hlt
        rw [PX_zero, hstored.leaf_eq vpn hlt, hleaves vpn hlt]
  · rw [hr]
    dsimp only
    rw [holds_pure]
    refine hfull s1 taken ?_ hgrown hnil hlen hleaves
    cases hleaf : leafPte s.mem root (va / 4096) with
    | none => rfl
    | some pte =>
      rw [missing_eq_zero_of_leaf hleaf] at hlen
      omega

/-- What `mappages` of one page does: the mapping is added, or there was no
memory for a table; a page already mapped is a panic. -/
def MapPost (s : Phys) (root va pa perm : Nat) (r : Int) (s' : Phys) : Prop :=
  leafPte s.mem root (va / 4096) = none ∧ ∃ taken, Grown s' s root taken ∧
    ((r = 0 ∧ taken.length = missing s.mem root va ∧
        ∀ vpn, vpn < 512 ^ 3 → leafPte s'.mem root vpn =
          if vpn = va / 4096 then some (mkPte pa perm) else leafPte s.mem root vpn) ∨
      (r = -1 ∧ s'.freelist = [] ∧ taken.length < missing s.mem root va ∧
        SameLeaves s' s root))

theorem mappages_page (hinv : PtTree s root) (hva : va < MAXVA) (halign : va % 4096 = 0)
    (hpa : pa < 2 ^ 64) (hperm : perm < 1024) :
    (mappages root va PGSIZE pa perm).Holds s (MapPost s root va pa perm)
      (fun message => message = "mappages: remap" ∧ (leafPte s.mem root (va / 4096)).isSome) := by
  have hloop : mappages root va PGSIZE pa perm = mappagesLoop root perm 1 va pa := by
    rw [mappages, if_neg (by simpa [PGSIZE] using halign), if_neg (by decide), if_neg (by decide)]
    rfl
  rw [hloop]
  refine holds_mappagesLoop_succ hinv hva hpa hperm (fun hsome => ⟨rfl, hsome⟩) ?_ ?_
  · intro s1 taken hnone hgrown hnil hlen hleaves
    exact ⟨hnone, taken, hgrown, Or.inr ⟨rfl, hnil, hlen, hleaves⟩⟩
  · intro s1 taken hnone hgrown hlen hleaf
    rw [mappagesLoop, holds_pure]
    exact ⟨hnone, taken, hgrown, Or.inl ⟨rfl, hlen, hleaf⟩⟩

end EAFITos
