/-
What a page table in memory means: the interior tables, the leaf entry of each
virtual page, and how storing one entry changes them.
-/
import EAFITos.Vm

namespace EAFITos

open List Prog Option

variable {m' : ByteMem} {v j d pg va : Nat}

variable {u x vpn level pagetable : Nat} {post : Option Nat → Phys → Prop}
  {onPanic : String → Prop}

/-- Entry `i` of the table at `t`. -/
def pteAt (m : ByteMem) (t i : Nat) : Nat := m.loadLE (t + 8 * i) 8

/-- The page a valid entry points to. -/
def child (m : ByteMem) (t i : Nat) : Option Nat :=
  if pteAt m t i % 2 = 1 then some (PTE2PA (pteAt m t i)) else none

/-- The table reached from `root` by the `d` leading nine-bit digits `x`. -/
def node (m : ByteMem) (root : Nat) : Nat → Nat → Option Nat :=
  Radix.node 512 (child m) root

/-- All page-table pages of `root`. -/
def tablePages (m : ByteMem) (root : Nat) : List Nat :=
  Radix.tables 512 (child m) root 2

/-- The valid leaf entry of virtual page `vpn`, if there is one. -/
def leafPte (m : ByteMem) (root vpn : Nat) : Option Nat :=
  (node m root 2 (vpn / 512)).bind fun t =>
    if pteAt m t (vpn % 512) % 2 = 1 then some (pteAt m t (vpn % 512)) else none

/-- Where the entry for `va` is stored, when its table exists. -/
def pteSlot (m : ByteMem) (root va : Nat) : Option Nat :=
  (node m root 2 (va / 2 ^ 21)).map (· + 8 * PX 0 va)

theorem pteAt_congr {m : ByteMem} {t i : Nat} (h : SamePage m' m t) (hi : i < 512) :
    pteAt m' t i = pteAt m t i := ByteMem.loadLE_congr (h.sub (by omega) (by omega))

theorem child_congr {m : ByteMem} {t i : Nat} (h : SamePage m' m t) (hi : i < 512) :
    child m' t i = child m t i := by
  rw [child, child, pteAt_congr h hi]

theorem pteAt_store_same (m : ByteMem) {t i : Nat} (hv : v < 256 ^ 8) :
    pteAt (m.storeLE (t + 8 * i) 8 v) t i = v := ByteMem.loadLE_storeLE_of_lt m hv

theorem pteAt_store_other (m : ByteMem) {t i : Nat} (ht : t % 4096 = 0) (hu : u % 4096 = 0)
    (hi : i < 512) (hj : j < 512) (hne : ¬ (u = t ∧ j = i)) :
    pteAt (m.storeLE (t + 8 * i) 8 v) u j = pteAt m u j := by
  apply ByteMem.loadLE_storeLE_other
  by_cases htu : u = t
  · subst htu
    omega
  · have happart := pages_apart hu ht htu
    omega

theorem pteAt_fill_zero (m : ByteMem) {t i : Nat} (hi : i < 512) :
    pteAt (m.fill t 0 4096) t i = 0 := ByteMem.loadLE_fill_zero m (by omega) (by omega)

theorem node_zero (m : ByteMem) (root x : Nat) : node m root 0 x = some root := rfl

theorem node_succ (m : ByteMem) (root d x : Nat) :
    node m root (d + 1) x = (node m root d (x / 512)).bind fun t =>
      child m t (x % 512) := rfl

theorem node_mem_tablePages {m : ByteMem} {root t : Nat} (hd : d ≤ 2) (hx : x < 512 ^ d)
    (hnode : node m root d x = some t) :
    t ∈ tablePages m root := Radix.node_mem_tables hd hx hnode

theorem root_mem_tablePages (m : ByteMem) (root : Nat) : root ∈ tablePages m root :=
  Radix.root_mem_tables

theorem node_congr {m : ByteMem} {root : Nat} (hsame : ∀ pg ∈ tablePages m root, SamePage m' m pg)
    (hd : d ≤ 3) (hx : x < 512 ^ d) :
    node m' root d x = node m root d x := Radix.node_congr (h := 2) (by decide)
    (fun u hu _ hi => child_congr (hsame u hu) hi) d x hd hx

theorem tablePages_congr {m : ByteMem} {root : Nat}
    (hsame : ∀ pg ∈ tablePages m root, SamePage m' m pg) :
    tablePages m' root = tablePages m root :=
  Radix.tables_congr (by decide) fun u hu _ hi => child_congr (hsame u hu) hi

theorem leafPte_congr {m : ByteMem} {root : Nat}
    (hsame : ∀ pg ∈ tablePages m root, SamePage m' m pg) (hvpn : vpn < 512 ^ 3) :
    leafPte m' root vpn = leafPte m root vpn := by
  have hlt : vpn / 512 < 512 ^ 2 := by omega
  rw [leafPte, leafPte, node_congr hsame (by decide) hlt]
  cases hnode : node m root 2 (vpn / 512) with
  | none => simp only [bind_none]
  | some t =>
    have ht : t ∈ tablePages m root := node_mem_tablePages (le_refl 2) hlt hnode
    simp only [bind_some]
    rw [pteAt_congr (hsame t ht) (Nat.mod_lt _ (by decide))]

/-- A page table and the free list occupy separate pages, and its interior entries
have the shape `walk` gives them. -/
structure PtTree (s : Phys) (root : Nat) : Prop where
  nodup : (s.freelist ++ tablePages s.mem root).Nodup
  heap : ∀ pg ∈ s.freelist ++ tablePages s.mem root, HeapPage s pg
  bound : s.phystop ≤ 2 ^ 56
  interior : ∀ d x t i, d < 2 → x < 512 ^ d → node s.mem root d x = some t →
    i < 512 → pteAt s.mem t i % 2 = 1 → PTE_FLAGS (pteAt s.mem t i) = 1
  high : ∀ i, 256 ≤ i → i < 512 → child s.mem root i = none

/-- A page table whose leaves give some access, as every caller of `mappages` asks. -/
structure PtInv (s : Phys) (root : Nat) : Prop extends PtTree s root where
  leaf : ∀ vpn pte, vpn < 512 ^ 3 → leafPte s.mem root vpn = some pte →
    hasFlag pte (PTE_R ||| PTE_W ||| PTE_X) = true

namespace PtTree

variable {s : Phys} {root : Nat}

section

variable (h : PtTree s root)
include h

theorem distinct : Radix.Distinct 512 (child s.mem) root 2 :=
  Radix.distinct_of_nodup (nodup_append'.1 h.nodup).2.1

theorem table_heap {t : Nat} (ht : t ∈ tablePages s.mem root) : HeapPage s t :=
  h.heap t (mem_append_right _ ht)

theorem free_heap (hpg : pg ∈ s.freelist) : HeapPage s pg := h.heap pg (mem_append_left _ hpg)

theorem free_not_table (hpg : pg ∈ s.freelist) : pg ∉ tablePages s.mem root :=
  fun ht => (nodup_append'.1 h.nodup).2.2 hpg ht

theorem heapPage_lt (hpg : HeapPage s pg) : pg < 2 ^ 56 := by
  have hbound := h.bound
  obtain ⟨_, _, hhi⟩ := hpg
  omega

end

end PtTree

/-- The digits of a virtual address are those of its page number. -/
theorem PX_zero (va : Nat) : PX 0 va = va / 4096 % 512 := rfl

theorem div_pow_succ (va e : Nat) : va / 2 ^ e / 512 = va / 2 ^ (e + 9) := by
  rw [Nat.div_div_eq_div_mul, Nat.pow_add]

/-- One step of the walk: the table at the next depth is a child of this one. -/
theorem node_step {m : ByteMem} {root : Nat} (hlevel : level < 2)
    (hat : node m root (1 - level) (va / 2 ^ (12 + 9 * (level + 2))) = some pagetable) :
    node m root (2 - level) (va / 2 ^ (12 + 9 * (level + 1))) =
      child m pagetable (PX (level + 1) va) := by
  have hdepth : 2 - level = 1 - level + 1 := by omega
  have hdigits : va / 2 ^ (12 + 9 * (level + 1)) / 512 = va / 2 ^ (12 + 9 * (level + 2)) := by
    have hexp : 12 + 9 * (level + 1) + 9 = 12 + 9 * (level + 2) := by omega
    rw [div_pow_succ, hexp]
  rw [hdepth, node_succ, hdigits, hat]
  simp only [bind_some, PX]

/-- A table missing on the way leaves no entry to find. -/
theorem pteSlot_eq_none {m : ByteMem} {root : Nat} (hlevel : level < 2)
    (hmissing : node m root (2 - level) (va / 2 ^ (12 + 9 * (level + 1))) = none) :
    pteSlot m root va = none := by
  have hlast : node m root 2 (va / 2 ^ 21) = none := by
    obtain rfl | rfl : level = 0 ∨ level = 1 := by omega
    · exact hmissing
    · have hdigits : va / 2 ^ 21 / 512 = va / 2 ^ 30 := div_pow_succ va 21
      rw [node_succ, hdigits]
      simp only [Nat.reduceMul, Nat.reduceAdd, Nat.reduceSub] at hmissing
      rw [hmissing]
      simp only [bind_none]
  rw [pteSlot, hlast]
  simp only [map_none]

theorem child_of_valid {m : ByteMem} {t i : Nat} (h : pteAt m t i % 2 = 1) :
    child m t i = some (PTE2PA (pteAt m t i)) := by
  rw [child, if_pos h]

theorem child_of_invalid {m : ByteMem} {t i : Nat} (h : ¬ pteAt m t i % 2 = 1) :
    child m t i = none := by
  rw [child, if_neg h]

/-- Without allocation the walk reads the tables and changes nothing. -/
theorem walkLoop_noalloc (s : Phys) (root va level : Nat) (hlevel : level ≤ 2)
    (hat : node s.mem root (2 - level) (va / 2 ^ (12 + 9 * (level + 1))) =
      some pagetable) (hpost : post (pteSlot s.mem root va) s) :
    (walkLoop va false level pagetable).Holds s post onPanic := by
  induction level generalizing pagetable with
  | zero =>
    have hnode : node s.mem root 2 (va / 2 ^ 21) = some pagetable := hat
    rw [pteSlot, hnode, map_some] at hpost
    rw [walkLoop, holds_pure]
    exact hpost
  | succ level ih =>
    have hdepth : 2 - (level + 1) = 1 - level := by omega
    rw [hdepth] at hat
    have hstep := node_step (by omega) hat
    have hpte : s.mem.loadLE (pagetable + 8 * PX (level + 1) va) 8 =
        pteAt s.mem pagetable (PX (level + 1) va) := rfl
    rw [walkLoop, holds_bind, loadPte, holds_read, hpte]
    simp only [hasFlag_V, decide_eq_true_eq, holds_ite, forall_const,
      not_true_eq_false, false_implies, and_true, holds_pure]
    constructor
    · intro hvalid
      rw [child_of_valid hvalid] at hstep
      exact ih (by omega) hstep
    · intro hinvalid
      rw [child_of_invalid hinvalid] at hstep
      rw [pteSlot_eq_none (by omega) hstep] at hpost
      exact hpost

theorem holds_walk_noalloc {s : Phys} {root : Nat} (hva : va < MAXVA) :
    (walk root va false).Holds s post onPanic ↔ post (pteSlot s.mem root va) s := by
  have hin : ¬ va ≥ MAXVA := by omega
  have hroot : node s.mem root (2 - 2) (va / 2 ^ (12 + 9 * (2 + 1))) = some root := rfl
  rw [walk, if_neg hin]
  constructor
  · intro h
    have hrun : (walkLoop va false 2 root).Holds s
        (fun r s' => r = pteSlot s.mem root va ∧ s' = s) (fun _ => False) :=
      walkLoop_noalloc s root va 2 (le_refl 2) hroot ⟨rfl, rfl⟩
    obtain ⟨r, s', _, hall⟩ := ((h.and hrun).mono (fun _ _ h => h) (fun _ h => h.2)).exists_ok
    rw [← hall.2.1, ← hall.2.2]
    exact hall.1
  · exact walkLoop_noalloc s root va 2 (le_refl 2) hroot

/-- What storing an entry of a last-level table does to a page table. -/
structure LeafStored (m' m : ByteMem) (root vpn : Nat) (entry : Option Nat) : Prop where
  node_eq : ∀ d x, d ≤ 2 → x < 512 ^ d → node m' root d x = node m root d x
  tables_eq : tablePages m' root = tablePages m root
  leaf_eq : ∀ vpn', vpn' < 512 ^ 3 →
    leafPte m' root vpn' = if vpn' = vpn then entry else leafPte m root vpn'
  frame : Frame m' m (tablePages m root)

theorem leafStored_storeLE {s : Phys} {root t : Nat} (hinv : PtTree s root) (hvpn : vpn < 512 ^ 3)
    (ht : node s.mem root 2 (vpn / 512) = some t) (hv : v < 256 ^ 8) :
    LeafStored (s.mem.storeLE (t + 8 * (vpn % 512)) 8 v) s.mem root vpn
      (if v % 2 = 1 then some v else none) := by
  have hlt : vpn / 512 < 512 ^ 2 := by omega
  have hi : vpn % 512 < 512 := Nat.mod_lt _ (by decide)
  have htable : t ∈ tablePages s.mem root := node_mem_tablePages (le_refl 2) hlt ht
  have haligned : ∀ u ∈ tablePages s.mem root, u % 4096 = 0 := fun u hu => (hinv.table_heap hu).1
  have hpte : ∀ u j, u ∈ tablePages s.mem root → j < 512 → ¬ (u = t ∧ j = vpn % 512) →
      pteAt (s.mem.storeLE (t + 8 * (vpn % 512)) 8 v) u j = pteAt s.mem u j := fun u j hu hj hne =>
      pteAt_store_other s.mem (haligned t htable) (haligned u hu) hi hj hne
  have hchild : ∀ u j, u ∈ tablePages s.mem root → j < 512 → ¬ (u = t ∧ j = vpn % 512) →
      child (s.mem.storeLE (t + 8 * (vpn % 512)) 8 v) u j = child s.mem u j :=
    fun u j hu hj hne => by rw [child, child, hpte u j hu hj hne]
  have hnode := Radix.node_setEntry (k := 512) (by decide) hinv.distinct hlt hi ht rfl hchild
  have hnode_eq : ∀ d x, d ≤ 2 → x < 512 ^ d →
      node (s.mem.storeLE (t + 8 * (vpn % 512)) 8 v) root d x =
        node s.mem root d x := by
    intro d x hd hx
    have h := hnode d x (by omega) hx
    rwa [if_neg (by omega)] at h
  refine ⟨hnode_eq, Radix.tables_eq_of_node_eq hnode_eq, ?_, ?_⟩
  · intro vpn' hvpn'
    have hlt' : vpn' / 512 < 512 ^ 2 := by omega
    rw [leafPte, hnode_eq 2 _ (le_refl 2) hlt']
    by_cases heq : vpn' = vpn
    · subst heq
      rw [if_pos rfl, ht]
      simp only [bind_some, pteAt_store_same s.mem hv]
    · rw [if_neg heq, leafPte]
      cases hu : node s.mem root 2 (vpn' / 512) with
      | none => simp only [bind_none]
      | some u =>
        have hmem := node_mem_tablePages (le_refl 2) hlt' hu
        have hne : ¬ (u = t ∧ vpn' % 512 = vpn % 512) := by
          rintro ⟨rfl, hmod⟩
          have hsame := (hinv.distinct 2 2 _ _ u (le_refl 2) (le_refl 2) hlt' hlt hu ht).2
          omega
        simp only [bind_some]
        rw [hpte u (vpn' % 512) hmem (Nat.mod_lt _ (by decide)) hne]
  · exact (storeLE_frame s.mem (haligned t htable) hi).mono (cons_subset.2 ⟨htable, nil_subset _⟩)

/-- The memory after `walk` has taken `new` from the free list, cleared it and
linked it into entry `i` of the table at `t`. -/
def linkMem (m : ByteMem) (t i new : Nat) : ByteMem :=
  ((m.fill new 5 4096).fill new 0 4096).storeLE (t + 8 * i) 8 (PA2PTE new ||| PTE_V)

theorem linkPte_eq (new : Nat) : PA2PTE new ||| PTE_V = mkPte new 0 := by
  rw [mkPte, Nat.or_zero]

section Link

variable {m : ByteMem} {t i new : Nat}

theorem pteAt_link_same (hnew : new < 2 ^ 56) :
    pteAt (linkMem m t i new) t i = PA2PTE new ||| PTE_V := by
  apply pteAt_store_same
  rw [linkPte_eq]
  exact mkPte_lt (by omega) (by decide)

section

variable (hnew : new % 4096 = 0) (ht : t % 4096 = 0) (hi : i < 512)
include hnew ht hi

theorem pteAt_link_new (hne : new ≠ t) (hj : j < 512) :
    pteAt (linkMem m t i new) new j = 0 := by
  rw [linkMem, pteAt_store_other _ ht hnew hi hj (fun h => hne h.1)]
  exact pteAt_fill_zero _ hj

theorem link_frame : Frame (linkMem m t i new) m [t, new] := by
  have hstore := storeLE_frame ((m.fill new 5 4096).fill new 0 4096)
    (v := PA2PTE new ||| PTE_V) ht hi
  have hzero := fill_frame (m.fill new 5 4096) 0 hnew
  have hjunk := fill_frame m 5 hnew
  intro pg hpg hout
  have houts : pg ∉ [t] ∧ pg ∉ [new] := by simpa using hout
  exact (hstore pg hpg houts.1).trans ((hzero pg hpg houts.2).trans (hjunk pg hpg houts.2))

theorem pteAt_link_other (hu : u % 4096 = 0) (hj : j < 512) (hne : u ≠ new)
    (hentry : ¬ (u = t ∧ j = i)) : pteAt (linkMem m t i new) u j = pteAt m u j := by
  rw [linkMem, pteAt_store_other _ ht hu hi hj hentry]
  have hzero := fill_frame (m.fill new 5 4096) 0 hnew
  have hjunk := fill_frame m 5 hnew
  have hout : u ∉ [new] := by simpa using hne
  exact pteAt_congr ((hzero u hu hout).trans (hjunk u hu hout)) hj

end

end Link

/-- What linking one fresh table does to a page table. -/
structure TableLinked (s' s : Phys) (root depth key new : Nat) : Prop where
  inv : PtTree s' root
  node_eq : ∀ d x, d ≤ 2 → x < 512 ^ d →
    node s'.mem root d x =
      if d = depth ∧ x = key then some new else node s.mem root d x
  tables_perm : (tablePages s'.mem root).Perm (new :: tablePages s.mem root)
  leaf_eq : ∀ vpn, vpn < 512 ^ 3 → leafPte s'.mem root vpn = leafPte s.mem root vpn
  frame : Frame s'.mem s.mem (new :: tablePages s.mem root)

theorem tableLinked_linkMem {s : Phys} {root y t i new : Nat} {rest : List Nat}
    (hinv : PtTree s root) (hfree : s.freelist = new :: rest) (hd : d < 2) (hy : y < 512 ^ d)
    (hi : i < 512) (ht : node s.mem root d y = some t) (hempty : child s.mem t i = none)
    (hlow : d = 0 → i < 256) :
    TableLinked { s with freelist := rest, mem := linkMem s.mem t i new } s root
      (d + 1) (y * 512 + i) new := by
  have hnewmem : new ∈ s.freelist := hfree ▸ mem_cons_self
  have htable : t ∈ tablePages s.mem root := node_mem_tablePages (by omega) hy ht
  have hnewheap := hinv.free_heap hnewmem
  have hnewfresh := hinv.free_not_table hnewmem
  have hne : new ≠ t := fun h => hnewfresh (h ▸ htable)
  have haligned : ∀ u ∈ tablePages s.mem root, u % 4096 = 0 := fun u hu => (hinv.table_heap hu).1
  have hpte : ∀ u j, u ∈ tablePages s.mem root → j < 512 → ¬ (u = t ∧ j = i) →
      pteAt (linkMem s.mem t i new) u j = pteAt s.mem u j :=
    fun u j hu hj hentry => pteAt_link_other hnewheap.1 (haligned t htable) hi
      (haligned u hu) hj (fun h => hnewfresh (h ▸ hu)) hentry
  have hptenew : ∀ j, j < 512 → pteAt (linkMem s.mem t i new) new j = 0 :=
    fun j hj => pteAt_link_new hnewheap.1 (haligned t htable) hi hne hj
  have hptelink := pteAt_link_same (m := s.mem) (t := t) (i := i) (hinv.heapPage_lt hnewheap)
  have hchildlink : child (linkMem s.mem t i new) t i = some new := by
    have hvalid : (PA2PTE new ||| PTE_V) % 2 = 1 := by
      rw [linkPte_eq]
      exact mkPte_mod_two
    rw [child_of_valid (by rw [hptelink]; exact hvalid), hptelink, linkPte_eq,
      PTE2PA_mkPte hnewheap.1 (by decide)]
  have hnode3 := Radix.node_link (k := 512) (by decide) hinv.distinct (by omega) hy hi
    ht hempty hchildlink (fun j hj => child_of_invalid (by rw [hptenew j hj]; decide))
    (fun u j hu hj hentry => by rw [child, child, hpte u j hu hj hentry])
  have hnode : ∀ e x, e ≤ 2 → x < 512 ^ e → node (linkMem s.mem t i new) root e x =
        if e = d + 1 ∧ x = y * 512 + i then some new else node s.mem root e x :=
    fun e x he hx => hnode3 e x (by omega) hx
  have hhole : node s.mem root (d + 1) (y * 512 + i) = none := by
    rw [node_succ, Radix.mul_add_div hi, Radix.mul_add_mod hi, ht, bind_some, hempty]
  have hperm : (tablePages (linkMem s.mem t i new) root).Perm (new :: tablePages s.mem root) :=
    Radix.tables_perm_link (h := 2) (by omega) hy hi hhole hnode
  have hleaf : ∀ vpn, vpn < 512 ^ 3 →
      leafPte (linkMem s.mem t i new) root vpn = leafPte s.mem root vpn := by
    intro vpn hvpn
    have hlt : vpn / 512 < 512 ^ 2 := by omega
    have hj : vpn % 512 < 512 := Nat.mod_lt _ (by decide)
    rw [leafPte, hnode 2 _ (le_refl 2) hlt, leafPte]
    by_cases hpoint : 2 = d + 1 ∧ vpn / 512 = y * 512 + i
    · have hbefore : node s.mem root 2 (vpn / 512) = none := by
        rw [hpoint.2]
        exact hpoint.1 ▸ hhole
      rw [if_pos hpoint, hbefore, bind_some, hptenew _ hj, bind_none, if_neg (by decide)]
    · rw [if_neg hpoint]
      cases hu : node s.mem root 2 (vpn / 512) with
      | none => simp only [bind_none]
      | some u =>
        have hentry : ¬ (u = t ∧ vpn % 512 = i) := by
          rintro ⟨rfl, _⟩
          have hdepth := (hinv.distinct 2 d _ y u (le_refl 2) (by omega) hlt hy hu ht).1
          omega
        simp only [bind_some]
        rw [hpte u _ (node_mem_tablePages (le_refl 2) hlt hu) hj hentry]
  have hall : (rest ++ tablePages (linkMem s.mem t i new) root).Perm
      (s.freelist ++ tablePages s.mem root) := by
    rw [hfree]
    exact (List.Perm.append_left rest hperm).trans perm_middle
  refine ⟨⟨hall.nodup_iff.2 hinv.nodup, fun pg hpg => hinv.heap pg (hall.mem_iff.1 hpg),
    hinv.bound, ?_, ?_⟩, hnode, hperm, hleaf, ?_⟩
  · intro e x u j he hx hu hj hvalid
    change pteAt (linkMem s.mem t i new) u j % 2 = 1 at hvalid
    change PTE_FLAGS (pteAt (linkMem s.mem t i new) u j) = 1
    change node (linkMem s.mem t i new) root e x = some u at hu
    rw [hnode e x (by omega) hx] at hu
    by_cases hpoint : e = d + 1 ∧ x = y * 512 + i
    · rw [if_pos hpoint] at hu
      obtain rfl := some.inj hu
      rw [hptenew j hj] at hvalid
      exact absurd hvalid (by decide)
    · rw [if_neg hpoint] at hu
      by_cases hentry : u = t ∧ j = i
      · obtain ⟨rfl, rfl⟩ := hentry
        rw [hptelink, linkPte_eq, PTE_FLAGS_mkPte (by decide)]
        rfl
      · have hmem := node_mem_tablePages (by omega) hx hu
        rw [hpte u j hmem hj hentry] at hvalid ⊢
        exact hinv.interior e x u j he hx hu hj hvalid
  · intro j hlo hj
    have hentry : ¬ (root = t ∧ j = i) := by
      rintro ⟨rfl, rfl⟩
      have hdepth := (hinv.distinct 0 d 0 y root (by omega) (by omega) (by decide) hy
        (node_zero s.mem root 0) ht).1
      have := hlow hdepth.symm
      omega
    have hsame := hpte root j (root_mem_tablePages s.mem root) hj hentry
    change child (linkMem s.mem t i new) root j = none
    rw [child, hsame]
    exact hinv.high j hlo hj
  · apply (link_frame hnewheap.1 (haligned t htable) hi).mono
    intro pg hpg
    simp only [mem_cons, not_mem_nil, or_false] at hpg ⊢
    rcases hpg with rfl | rfl
    · exact Or.inr htable
    · exact Or.inl rfl

end EAFITos
