/-
Page accounting.  The free pages, the table pages of a page table, the pages its
leaf entries own and the pages the kernel code holds form a ledger, and each
primitive change of memory only moves pages within it.
-/
import EAFITos.Walk
import Mathlib.Data.Finset.Card
import Mathlib.Order.Interval.Finset.Nat

namespace EAFITos

open List

variable {m' m : ByteMem} {pg : Nat}

/-- The number of virtual pages a three-level table can map. -/
@[irreducible] def NVPN : Nat := 512 ^ 3

theorem NVPN_eq : NVPN = 512 ^ 3 := by
  unfold NVPN
  rfl

/-- The pages that the leaf entries selected by `keep` point to. -/
def ownedLeaves (m : ByteMem) (root : Nat) (keep : Nat → Bool) : List Nat :=
  (List.range NVPN).filterMap fun vpn =>
    if keep vpn then (leafPte m root vpn).map PTE2PA else none

/-- The pages accounted for: free, page table, leaf, and `held` by the kernel
code at work. -/
def ledger (s : Phys) (root : Nat) (keep : Nat → Bool) (held : List Nat) : List Nat :=
  s.freelist ++ (tablePages s.mem root ++ (ownedLeaves s.mem root keep ++ held))

theorem mem_ownedLeaves_iff {root : Nat} {keep : Nat → Bool} : pg ∈ ownedLeaves m root keep ↔
      ∃ vpn pte, vpn < 512 ^ 3 ∧ keep vpn = true ∧ leafPte m root vpn = some pte ∧
        PTE2PA pte = pg := by
  rw [ownedLeaves, mem_filterMap]
  constructor
  · rintro ⟨vpn, hvpn, h⟩
    rw [mem_range, NVPN_eq] at hvpn
    cases hkeep : keep vpn with
    | false => simp [hkeep] at h
    | true =>
      rw [hkeep, if_pos rfl, Option.map_eq_some_iff] at h
      obtain ⟨pte, hpte, hpg⟩ := h
      exact ⟨vpn, pte, hvpn, hkeep, hpte, hpg⟩
  · rintro ⟨vpn, pte, hvpn, hkeep, hpte, hpg⟩
    rw [← NVPN_eq] at hvpn
    refine ⟨vpn, mem_range.2 hvpn, ?_⟩
    rw [hkeep, if_pos rfl, hpte, Option.map_some, hpg]

theorem ownedLeaves_congr {root : Nat} {keep keep' : Nat → Bool} (hsame : ∀ vpn, vpn < 512 ^ 3 →
      (if keep' vpn then leafPte m' root vpn else none) =
        if keep vpn then leafPte m root vpn else none) :
    ownedLeaves m' root keep' = ownedLeaves m root keep := by
  apply filterMap_congr
  intro vpn hvpn
  rw [mem_range, NVPN_eq] at hvpn
  have h := congrArg (Option.map PTE2PA) (hsame vpn hvpn)
  rwa [apply_ite (Option.map PTE2PA), apply_ite (Option.map PTE2PA), Option.map_none] at h

/-- A new mapping adds its page to the pages owned. -/
theorem ownedLeaves_insert {root vpn pte : Nat} {keep : Nat → Bool} (hvpn : vpn < 512 ^ 3)
    (hkeep : keep vpn = true) (hold : leafPte m root vpn = none)
    (hleaf : ∀ vpn', vpn' < 512 ^ 3 → leafPte m' root vpn' =
      if vpn' = vpn then some pte else leafPte m root vpn') :
    (ownedLeaves m' root keep).Perm (PTE2PA pte :: ownedLeaves m root keep) := by
  have hlt : vpn < NVPN := by rw [NVPN_eq]; exact hvpn
  apply filterMap_range_perm_insert hlt
  · intro vpn' hvpn' hne
    rw [NVPN_eq] at hvpn'
    rw [hleaf vpn' hvpn', if_neg hne]
  · rw [hkeep, if_pos rfl, hold, Option.map_none]
  · rw [hkeep, if_pos rfl, hleaf vpn hvpn, if_pos rfl, Option.map_some]

/-- The pages of the list are distinct pages of the managed range. -/
structure Good (s : Phys) (pages : List Nat) : Prop where
  nodup : pages.Nodup
  heap : ∀ pg ∈ pages, HeapPage s pg

/-- The pages of one list have become those of the other, and memory outside
them is as it was. -/
structure Shift (s' s : Phys) (pages' pages : List Nat) : Prop where
  perm : pages'.Perm pages
  frame : Frame s'.mem s.mem pages
  bounds : SameBounds s' s
  refreed : s'.refreed = s.refreed

namespace Shift

variable {s s' s'' : Phys} {pages pages' pages'' rest : List Nat}

theorem refl (s : Phys) (pages : List Nat) : Shift s s pages pages :=
  ⟨List.Perm.refl _, Frame.refl _ _, SameBounds.refl s, rfl⟩

theorem trans (h' : Shift s'' s' pages'' pages') (h : Shift s' s pages' pages) :
    Shift s'' s pages'' pages where
  perm := h'.perm.trans h.perm
  frame := (h'.frame.mono h.perm.subset).trans h.frame
  bounds := h'.bounds.trans h.bounds
  refreed := h'.refreed.trans h.refreed

section

variable (h : Shift s' s pages' pages)
include h

theorem good (hgood : Good s pages) : Good s' pages' where
  nodup := h.perm.nodup_iff.2 hgood.nodup
  heap := fun pg hpg => (h.bounds.heapPage_iff pg).2 (hgood.heap pg (h.perm.mem_iff.1 hpg))

/-- A change within some pages is a change within more of them. -/
theorem append (rest : List Nat) :
    Shift s' s (pages' ++ rest) (pages ++ rest) where
  perm := h.perm.append_right rest
  frame := h.frame.mono (subset_append_left _ _)
  bounds := h.bounds
  refreed := h.refreed

theorem congr (hnew : pages''.Perm pages') (hold : pages.Perm rest) : Shift s' s pages'' rest where
  perm := (hnew.trans h.perm).trans hold
  frame := h.frame.mono hold.subset
  bounds := h.bounds
  refreed := h.refreed

end

end Shift

/-- The bytes of the page at `pa`. -/
def pageBytes (m : ByteMem) (pa : Nat) : Fin 4096 → UInt8 := fun off => m (pa + off)

theorem pageBytes_congr {pa : Nat} (h : SamePage m' m pa) :
    pageBytes m' pa = pageBytes m pa := by
  funext off
  exact h (pa + off) (by omega) (by omega)

/-- What a page table says of one virtual page: the entry and, for a page it
owns, the contents. -/
structure Mapping where
  pte : Nat
  bytes : Option (Fin 4096 → UInt8)

def view (m : ByteMem) (root : Nat) (keep : Nat → Bool) (vpn : Nat) : Option Mapping :=
  (leafPte m root vpn).map fun pte =>
    ⟨pte, if keep vpn then some (pageBytes m (PTE2PA pte)) else none⟩

/-- The mappings of `root` are the same in both states. -/
def SameView (s' s : Phys) (root : Nat) (keep : Nat → Bool) : Prop :=
  ∀ vpn, vpn < 512 ^ 3 → view s'.mem root keep vpn = view s.mem root keep vpn

theorem leafPte_eq_view (m : ByteMem) (root : Nat) (keep : Nat → Bool) (vpn : Nat) :
    leafPte m root vpn = (view m root keep vpn).map Mapping.pte := by
  rw [view, Option.map_map]
  cases leafPte m root vpn <;> rfl

theorem view_congr {root vpn : Nat} {keep : Nat → Bool}
    (hleaf : leafPte m' root vpn = leafPte m root vpn)
    (hpage : ∀ pte, leafPte m root vpn = some pte → keep vpn = true → SamePage m' m (PTE2PA pte)) :
    view m' root keep vpn = view m root keep vpn := by
  rw [view, view, hleaf]
  cases hpte : leafPte m root vpn with
  | none => rw [Option.map_none, Option.map_none]
  | some pte =>
    rw [Option.map_some, Option.map_some]
    cases hkeep : keep vpn with
    | false => rfl
    | true => rw [pageBytes_congr (hpage pte hpte hkeep)]

/-- A page table survives any change that spares its tables and keeps the free
list apart from them. -/
theorem PtTree.congr {s s' : Phys} {root : Nat} (hinv : PtTree s root)
    (hsame : ∀ pg ∈ tablePages s.mem root, SamePage s'.mem s.mem pg)
    (hnodup : (s'.freelist ++ tablePages s.mem root).Nodup)
    (hheap : ∀ pg ∈ s'.freelist, HeapPage s pg) (hbounds : SameBounds s' s) :
    PtTree s' root := by
  have htables := tablePages_congr hsame
  refine ⟨?_, ?_, ?_, ?_, ?_⟩
  · rw [htables]
    exact hnodup
  · intro pg hpg
    rw [htables] at hpg
    rw [hbounds.heapPage_iff]
    rcases mem_append.1 hpg with hfree | htable
    · exact hheap pg hfree
    · exact hinv.table_heap htable
  · rw [hbounds.phystop]
    exact hinv.bound
  · intro d x t i hd hx ht hi hvalid
    rw [node_congr hsame (by omega) hx] at ht
    have hmem := node_mem_tablePages (by omega) hx ht
    rw [pteAt_congr (hsame t hmem) hi] at hvalid ⊢
    exact hinv.interior d x t i hd hx ht hi hvalid
  · intro i hlo hi
    rw [child_congr (hsame root (root_mem_tablePages s.mem root)) hi]
    exact hinv.high i hlo hi

theorem PtInv.congr {s s' : Phys} {root : Nat} (hinv : PtInv s root)
    (hsame : ∀ pg ∈ tablePages s.mem root, SamePage s'.mem s.mem pg)
    (hnodup : (s'.freelist ++ tablePages s.mem root).Nodup)
    (hheap : ∀ pg ∈ s'.freelist, HeapPage s pg) (hbounds : SameBounds s' s) :
    PtInv s' root := by
  refine ⟨hinv.toPtTree.congr hsame hnodup hheap hbounds, fun vpn pte hvpn hpte => ?_⟩
  rw [leafPte_congr hsame hvpn] at hpte
  exact hinv.leaf vpn pte hvpn hpte

/-- A page table whose tables, owned leaves, the free list and the pages `held`
are pairwise separate. -/
structure Sep (s : Phys) (root : Nat) (keep : Nat → Bool) (held : List Nat) : Prop where
  inv : PtInv s root
  good : Good s (ledger s root keep held)

/-- From `s` to `s'` pages have only moved between the places of the ledger. -/
structure Moved (s' s : Phys) (root : Nat) (keep : Nat → Bool)
    (held' held : List Nat) : Prop where
  inv : PtInv s' root
  shift : Shift s' s (ledger s' root keep held') (ledger s root keep held)

section Primitives

variable {s s' s'' : Phys} {root : Nat} {keep : Nat → Bool}
  {held held' held'' : List Nat}

theorem Moved.sep (h : Moved s' s root keep held' held) (hsep : Sep s root keep held) :
    Sep s' root keep held' := ⟨h.inv, h.shift.good hsep.good⟩

theorem Moved.refl (hinv : PtInv s root) : Moved s s root keep held held := ⟨hinv, Shift.refl s _⟩

theorem Moved.trans (h' : Moved s'' s' root keep held'' held')
    (h : Moved s' s root keep held' held) : Moved s'' s root keep held'' held :=
  ⟨h'.inv, h'.shift.trans h.shift⟩

theorem SameView.refl (s : Phys) : SameView s s root keep := fun _ _ => rfl

theorem SameView.trans (h' : SameView s'' s' root keep) (h : SameView s' s root keep) :
    SameView s'' s root keep := fun vpn hvpn => (h' vpn hvpn).trans (h vpn hvpn)

theorem SameView.leaves (h : SameView s' s root keep) : SameLeaves s' s root := by
  intro vpn hvpn
  rw [leafPte_eq_view _ _ keep, leafPte_eq_view _ _ keep, h vpn hvpn]

theorem SameLeaves.owned (h : SameLeaves s' s root) :
    ownedLeaves s'.mem root keep = ownedLeaves s.mem root keep :=
  ownedLeaves_congr fun vpn hvpn => by rw [h vpn hvpn]

theorem Moved.free_tables (h : Moved s' s root keep held held) (hleaves : SameLeaves s' s root) :
    (s'.freelist ++ tablePages s'.mem root).Perm (s.freelist ++ tablePages s.mem root) := by
  have hperm := h.shift.perm
  rw [ledger, ledger, hleaves.owned] at hperm
  refine (perm_append_right_iff (ownedLeaves s.mem root keep ++ held)).mp ?_
  simpa only [append_assoc] using hperm

namespace Sep

section

variable (h : Sep s root keep held)
include h

theorem disjoint : s.freelist.Nodup ∧ (tablePages s.mem root).Nodup ∧
      (ownedLeaves s.mem root keep).Nodup ∧ held.Nodup ∧
      (∀ pg ∈ s.freelist, pg ∉ tablePages s.mem root ∧
        pg ∉ ownedLeaves s.mem root keep ∧ pg ∉ held) ∧
      (∀ pg ∈ tablePages s.mem root, pg ∉ ownedLeaves s.mem root keep ∧ pg ∉ held) ∧
      (∀ pg ∈ ownedLeaves s.mem root keep, pg ∉ held) := by
  have hnodup := h.good.nodup
  rw [ledger, nodup_append', nodup_append', nodup_append'] at hnodup
  obtain ⟨hfree, ⟨htables, ⟨hleaves, hheld, hleafheld⟩, htablerest⟩, hfreerest⟩ := hnodup
  refine ⟨hfree, htables, hleaves, hheld, ?_, ?_, fun pg hpg hin => hleafheld hpg hin⟩
  · intro pg hpg
    have hout := fun hin => hfreerest hpg hin
    simp only [mem_append] at hout
    tauto
  · intro pg hpg
    have hout := fun hin => htablerest hpg hin
    simp only [mem_append] at hout
    tauto

theorem heldHeap (hpg : pg ∈ held) : HeapPage s pg := by
  apply h.good.heap
  simp only [ledger, mem_append]
  tauto

theorem leafHeap {vpn pte : Nat} (hvpn : vpn < 512 ^ 3) (hkeep : keep vpn = true)
    (hpte : leafPte s.mem root vpn = some pte) :
    PTE2PA pte ∈ ownedLeaves s.mem root keep ∧ HeapPage s (PTE2PA pte) := by
  have hin : PTE2PA pte ∈ ownedLeaves s.mem root keep :=
    mem_ownedLeaves_iff.2 ⟨vpn, pte, hvpn, hkeep, hpte, rfl⟩
  refine ⟨hin, h.good.heap _ ?_⟩
  exact mem_append_right _ (mem_append_right _ (mem_append_left _ hin))

/-- No two virtual pages own the same page. -/
theorem leaf_inj {vpn vpn' pte pte' : Nat} (hvpn : vpn < 512 ^ 3) (hkeep : keep vpn = true)
    (hpte : leafPte s.mem root vpn = some pte) (hvpn' : vpn' < 512 ^ 3) (hkeep' : keep vpn' = true)
    (hpte' : leafPte s.mem root vpn' = some pte') (hsame : PTE2PA pte' = PTE2PA pte) :
    vpn' = vpn := by
  have hnodup := h.disjoint.2.2.1
  rw [← NVPN_eq] at hvpn hvpn'
  refine eq_of_nodup_filterMap_range hnodup hvpn' hvpn (y := PTE2PA pte) ?_ ?_
  · rw [hkeep', if_pos rfl, hpte', Option.map_some, hsame]
  · rw [hkeep, if_pos rfl, hpte, Option.map_some]

end

end Sep

/-- Memory has room for a bounded number of pages. -/
theorem Good.length_le {pages : List Nat} (h : Good s pages)
    (hroom : s.phystop ≤ s.kend + 2 ^ 27) : pages.length ≤ 2 ^ 15 := by
  have hinj : (pages.map (· / 4096)).Nodup := by
    refine h.nodup.map_on ?_
    intro pg hpg pg' hpg' heq
    have hmod := (h.heap pg hpg).1
    have hmod' := (h.heap pg' hpg').1
    omega
  have hsub : (pages.map (· / 4096)).toFinset ⊆
      Finset.Ico ((s.kend + 4095) / 4096) ((s.kend + 4095) / 4096 + 2 ^ 15) := by
    intro q hq
    rw [mem_toFinset, mem_map] at hq
    obtain ⟨pg, hpg, rfl⟩ := hq
    obtain ⟨hmod, hlo, hhi⟩ := h.heap pg hpg
    rw [Finset.mem_Ico]
    omega
  have hcard := Finset.card_le_card hsub
  rwa [toFinset_card_of_nodup hinj, length_map, Nat.card_Ico, Nat.add_sub_cancel_left] at hcard

/-- So a page table cannot own more pages than that. -/
theorem Sep.mapped_le (h : Sep s root keep held) (hroom : s.phystop ≤ s.kend + 2 ^ 27) {n : Nat}
    (hn : n ≤ 512 ^ 3)
    (hmapped : ∀ vpn, vpn < n → keep vpn = true ∧ leafPte s.mem root vpn ≠ none) :
    n ≤ 2 ^ 15 := by
  have hleaf : ∀ vpn ∈ List.range n, vpn < 512 ^ 3 ∧ keep vpn = true ∧
      leafPte s.mem root vpn = some ((leafPte s.mem root vpn).getD 0) := by
    intro vpn hvpn
    rw [mem_range] at hvpn
    obtain ⟨hkeep, hsome⟩ := hmapped vpn hvpn
    obtain ⟨pte, hpte⟩ := Option.ne_none_iff_exists'.1 hsome
    exact ⟨by omega, hkeep, by rw [hpte, Option.getD_some]⟩
  have hgood : Good s ((List.range n).map fun vpn => PTE2PA ((leafPte s.mem root vpn).getD 0)) := by
    refine ⟨nodup_range.map_on ?_, ?_⟩
    · intro vpn hvpn vpn' hvpn' heq
      obtain ⟨hlt, hkeep, hpte⟩ := hleaf vpn hvpn
      obtain ⟨hlt', hkeep', hpte'⟩ := hleaf vpn' hvpn'
      exact h.leaf_inj hlt' hkeep' hpte' hlt hkeep hpte heq
    · intro pg hpg
      obtain ⟨vpn, hvpn, rfl⟩ := mem_map.1 hpg
      obtain ⟨hlt, hkeep, hpte⟩ := hleaf vpn hvpn
      exact (h.leafHeap hlt hkeep hpte).2
  have hlen := hgood.length_le hroom
  rwa [length_map, length_range] at hlen

theorem moved_write {pages : List Nat} (hsep : Sep s root keep held)
    (hframe : Frame m' s.mem pages) (hpages : pages ⊆ ownedLeaves s.mem root keep ++ held) :
    Moved { s with mem := m' } s root keep held held ∧ SameLeaves { s with mem := m' } s root := by
  obtain ⟨_, _, _, _, _, htables, _⟩ := hsep.disjoint
  have hsame : ∀ pg ∈ tablePages s.mem root, SamePage m' s.mem pg := by
    intro pg hpg
    apply hframe pg (hsep.inv.table_heap hpg).1
    intro hin
    rcases mem_append.1 (hpages hin) with hleaf | hheld
    · exact (htables pg hpg).1 hleaf
    · exact (htables pg hpg).2 hheld
  have hbounds : SameBounds { s with mem := m' } s := (SameBounds.refl s).setMem m'
  have hleaves : SameLeaves { s with mem := m' } s root := fun vpn hvpn => leafPte_congr hsame hvpn
  have hinv : PtInv { s with mem := m' } root :=
    hsep.inv.congr hsame hsep.inv.nodup (fun pg hpg => hsep.inv.free_heap hpg) hbounds
  refine ⟨⟨hinv, ?_, ?_, hbounds, rfl⟩, hleaves⟩
  · rw [ledger, ledger, hleaves.owned, tablePages_congr hsame]
  · apply hframe.mono
    intro pg hpg
    have hin := hpages hpg
    simp only [ledger, mem_append] at hin ⊢
    tauto

theorem moved_writeHeld {pages : List Nat} (hsep : Sep s root keep held)
    (hframe : Frame m' s.mem pages) (hpages : pages ⊆ held) :
    Moved { s with mem := m' } s root keep held held ∧
      SameView { s with mem := m' } s root keep := by
  obtain ⟨hmoved, hleaves⟩ := moved_write hsep hframe
    (fun pg hpg => mem_append_right _ (hpages hpg))
  refine ⟨hmoved, fun vpn hvpn => view_congr (hleaves vpn hvpn) fun pte hpte hkeep => ?_⟩
  have hleaf := hsep.leafHeap hvpn hkeep hpte
  refine hframe _ hleaf.2.1 fun hin => ?_
  exact hsep.disjoint.2.2.2.2.2.2 _ hleaf.1 (hpages hin)

theorem Sep.unchanged (hsep : Sep s root keep held) {pages : List Nat}
    (hframe : Frame s'.mem s.mem pages)
    (hout : ∀ pg ∈ tablePages s.mem root ++ ownedLeaves s.mem root keep, pg ∉ pages) :
    (∀ pg ∈ tablePages s.mem root, SamePage s'.mem s.mem pg) ∧
      SameView s' s root keep := by
  have htables : ∀ pg ∈ tablePages s.mem root, SamePage s'.mem s.mem pg := fun pg hpg =>
    hframe pg (hsep.inv.table_heap hpg).1 (hout pg (mem_append_left _ hpg))
  refine ⟨htables, fun vpn hvpn => ?_⟩
  refine view_congr (leafPte_congr htables hvpn) fun pte hpte hkeep => ?_
  have hleaf := hsep.leafHeap hvpn hkeep hpte
  exact hframe _ hleaf.2.1 (hout _ (mem_append_right _ hleaf.1))

/-- A page table whose tables are spared, in a state whose pages are in order. -/
theorem PtInv.carry {pages : List Nat} (hinv : PtInv s root)
    (hsame : ∀ pg ∈ tablePages s.mem root, SamePage s'.mem s.mem pg) (hgood : Good s' pages)
    (hsub : (s'.freelist ++ tablePages s.mem root).Sublist pages)
    (hbounds : SameBounds s' s) : PtInv s' root := by
  refine hinv.congr hsame (hgood.nodup.sublist hsub) (fun pg hpg => ?_) hbounds
  rw [← hbounds.heapPage_iff]
  exact hgood.heap pg (hsub.subset (mem_append_left _ hpg))

/-- Which virtual pages count as owned matters only where something is mapped. -/
theorem ledger_rekeep {keep' : Nat → Bool}
    (hkeep : ∀ vpn, vpn < 512 ^ 3 → leafPte s.mem root vpn ≠ none → keep' vpn = keep vpn) :
    ledger s root keep' held = ledger s root keep held := by
  have howned : ownedLeaves s.mem root keep' = ownedLeaves s.mem root keep := by
    apply ownedLeaves_congr
    intro vpn hvpn
    by_cases hnone : leafPte s.mem root vpn = none
    · rw [hnone, ite_self, ite_self]
    · rw [hkeep vpn hvpn hnone]
  rw [ledger, ledger, howned]

theorem Sep.rekeep {keep' : Nat → Bool} (h : Sep s root keep held)
    (hkeep : ∀ vpn, vpn < 512 ^ 3 → leafPte s.mem root vpn ≠ none → keep' vpn = keep vpn) :
    Sep s root keep' held := ⟨h.inv, by rw [ledger_rekeep hkeep]; exact h.good⟩

/-- Taking the first free page, whatever is then written to it. -/
theorem moved_take {r : Nat} {rest : List Nat} (hsep : Sep s root keep held)
    (hfree : s.freelist = r :: rest) (hframe : Frame m' s.mem [r]) :
    Moved { s with freelist := rest, mem := m' } s root keep (r :: held) held ∧
      SameView { s with freelist := rest, mem := m' } s root keep := by
  obtain ⟨hnodup, _, _, _, hfreeout, _, _⟩ := hsep.disjoint
  have hr : r ∈ s.freelist := hfree ▸ mem_cons_self
  have hsame : ∀ pg ∈ tablePages s.mem root, SamePage m' s.mem pg := by
    intro pg hpg
    apply hframe pg (hsep.inv.table_heap hpg).1
    rw [mem_singleton]
    rintro rfl
    exact (hfreeout pg hr).1 hpg
  have hleaves : SameLeaves { s with freelist := rest, mem := m' } s root :=
    fun vpn hvpn => leafPte_congr hsame hvpn
  have hsub : ∀ pg ∈ rest, pg ∈ s.freelist := fun pg hpg =>
    hfree ▸ mem_cons_of_mem _ hpg
  have hnodup' : (rest ++ tablePages s.mem root).Nodup := by
    have h := hsep.inv.nodup
    rw [hfree, cons_append] at h
    exact (nodup_cons.1 h).2
  have hbounds : SameBounds { s with freelist := rest, mem := m' } s := ⟨rfl, rfl, rfl⟩
  refine ⟨⟨hsep.inv.congr hsame hnodup' (fun pg hpg => hsep.inv.free_heap (hsub pg hpg))
    hbounds, ?_, ?_, hbounds, rfl⟩, ?_⟩
  · rw [ledger, ledger, hleaves.owned, tablePages_congr hsame, hfree]
    refine perm_iff_count.2 fun pg => ?_
    simp only [count_append, count_cons]
    omega
  · apply hframe.mono
    intro pg hpg
    rw [mem_singleton] at hpg
    rw [ledger, hpg]
    exact mem_append_left _ hr
  · intro vpn hvpn
    refine view_congr (hleaves vpn hvpn) fun pte hpte hkeep => ?_
    have hleaf := hsep.leafHeap hvpn hkeep hpte
    apply hframe _ hleaf.2.1
    rw [mem_singleton]
    intro heq
    exact (hfreeout r hr).2.1 (heq ▸ hleaf.1)

/-- Returning a held page to the free list. -/
theorem moved_give (hsep : Sep s root keep (pg :: held)) (hframe : Frame m' s.mem [pg])
    {s' : Phys} (hs' : s' = { s with
      mem := m'
      freelist := pg :: s.freelist
      refreed := s.refreed || s.freelist.contains pg }) :
    Moved s' s root keep held (pg :: held) ∧ SameView s' s root keep := by
  obtain ⟨_, _, _, _, hfreeout, htables, hleafout⟩ := hsep.disjoint
  have hpgheap := hsep.heldHeap mem_cons_self
  have hnotfree : pg ∉ s.freelist := fun h => (hfreeout pg h).2.2 mem_cons_self
  have hnottable : pg ∉ tablePages s.mem root := fun h => (htables pg h).2 mem_cons_self
  have hsame : ∀ t ∈ tablePages s.mem root, SamePage m' s.mem t := by
    intro t ht
    apply hframe t (hsep.inv.table_heap ht).1
    rw [mem_singleton]
    rintro rfl
    exact hnottable ht
  have hmem : s'.mem = m' := by rw [hs']
  have hlist : s'.freelist = pg :: s.freelist := by rw [hs']
  have hbounds : SameBounds s' s := by
    rw [hs']
    exact ⟨rfl, rfl, rfl⟩
  have hleaves : SameLeaves s' s root := by
    intro vpn hvpn
    rw [hmem]
    exact leafPte_congr hsame hvpn
  have hnodup : (pg :: s.freelist ++ tablePages s.mem root).Nodup := by
    rw [cons_append, nodup_cons]
    refine ⟨?_, hsep.inv.nodup⟩
    rw [mem_append]
    tauto
  refine ⟨⟨hsep.inv.congr (hmem ▸ hsame) (hlist ▸ hnodup) ?_ hbounds, ?_, ?_, hbounds, ?_⟩, ?_⟩
  · rw [hlist]
    intro other hother
    rcases mem_cons.1 hother with rfl | hother
    · exact hpgheap
    · exact hsep.inv.free_heap hother
  · rw [ledger, ledger, hleaves.owned, hlist, hmem, tablePages_congr hsame]
    refine perm_iff_count.2 fun x => ?_
    simp only [count_append, count_cons]
    omega
  · rw [hmem]
    apply hframe.mono
    intro x hx
    simp only [ledger, mem_append, mem_cons, not_mem_nil, or_false] at hx ⊢
    tauto
  · have hcontains : s.freelist.contains pg = false := by simpa using hnotfree
    rw [hs', hcontains, Bool.or_false]
  · intro vpn hvpn
    refine view_congr (hleaves vpn hvpn) fun pte hpte hkeep => ?_
    have hleaf := hsep.leafHeap hvpn hkeep hpte
    rw [hmem]
    apply hframe _ hleaf.2.1
    rw [mem_singleton]
    intro heq
    exact hleafout _ hleaf.1 (heq ▸ mem_cons_self)

/-- New tables come from the free list and change no mapping. -/
theorem moved_grow {taken : List Nat} (hsep : Sep s root keep held)
    (hgrown : Grown s' s root taken) (hleaves : SameLeaves s' s root) :
    Moved s' s root keep held held ∧ SameView s' s root keep := by
  have hinv := hgrown.ptInv hsep.inv hleaves
  obtain ⟨_, _, _, _, hfreeout, htables, _⟩ := hsep.disjoint
  have htaken : ∀ pg ∈ taken, pg ∈ s.freelist := fun pg hpg => by
    rw [hgrown.free]
    exact mem_append_left _ hpg
  refine ⟨⟨hinv, ?_, ?_, hgrown.bounds, hgrown.refreed⟩, ?_⟩
  · rw [ledger, ledger, hleaves.owned, hgrown.free]
    refine perm_iff_count.2 fun pg => ?_
    have hcount := hgrown.tables.count_eq pg
    simp only [count_append] at hcount ⊢
    omega
  · apply hgrown.frame.mono
    intro pg hpg
    rcases mem_append.1 hpg with hpg | hpg
    · exact mem_append_left _ (htaken pg hpg)
    · exact mem_append_right _ (mem_append_left _ hpg)
  · intro vpn hvpn
    refine view_congr (hleaves vpn hvpn) fun pte hpte hkeep => ?_
    have hleaf := hsep.leafHeap hvpn hkeep hpte
    apply hgrown.frame _ hleaf.2.1
    intro hin
    rcases mem_append.1 hin with hin | hin
    · exact (hfreeout _ (htaken _ hin)).2.1 hleaf.1
    · exact (htables _ hin).1 hleaf.1

/-- The mappings after one more has been added. -/
def Mapped (s' s : Phys) (root : Nat) (keep : Nat → Bool) (vpn : Nat)
    (mapping : Mapping) : Prop :=
  ∀ vpn', vpn' < 512 ^ 3 → view s'.mem root keep vpn' =
    if vpn' = vpn then some mapping else view s.mem root keep vpn'

section Map

variable {taken : List Nat} {vpn pa perm : Nat}

theorem Grown.samePage (hgrown : Grown s' s root taken) (hpg : pg % 4096 = 0)
    (hfree : pg ∉ s.freelist) (htable : pg ∉ tablePages s.mem root) :
    SamePage s'.mem s.mem pg := by
  apply hgrown.frame pg hpg
  intro hin
  rcases mem_append.1 hin with hin | hin
  · apply hfree
    rw [hgrown.free]
    exact mem_append_left _ hin
  · exact htable hin

theorem Grown.sameView_other (hsep : Sep s root keep held) (hgrown : Grown s' s root taken)
    {vpn' : Nat} (hvpn' : vpn' < 512 ^ 3)
    (hleaf : leafPte s'.mem root vpn' = leafPte s.mem root vpn') :
    view s'.mem root keep vpn' = view s.mem root keep vpn' := by
  obtain ⟨_, _, _, _, hfreeout, htables, _⟩ := hsep.disjoint
  refine view_congr hleaf fun pte hpte hkeep => ?_
  have hin := hsep.leafHeap hvpn' hkeep hpte
  exact hgrown.samePage hin.2.1 (fun h => (hfreeout _ h).2.1 hin.1) (fun h => (htables _ h).1 hin.1)

theorem moved_map (hsep : Sep s root keep (pa :: held)) (hvpn : vpn < 512 ^ 3)
    (hkeep : keep vpn = true) (hperm : perm < 1024)
    (hflags : hasFlag perm (PTE_R ||| PTE_W ||| PTE_X) = true) (hgrown : Grown s' s root taken)
    (hold : leafPte s.mem root vpn = none)
    (hleaf : ∀ vpn', vpn' < 512 ^ 3 → leafPte s'.mem root vpn' =
      if vpn' = vpn then some (mkPte pa perm) else leafPte s.mem root vpn') :
    Moved s' s root keep held (pa :: held) ∧
      Mapped s' s root keep vpn ⟨mkPte pa perm, some (pageBytes s.mem pa)⟩ := by
  obtain ⟨_, _, _, _, hfreeout, htables, _⟩ := hsep.disjoint
  have hpaheap := hsep.heldHeap mem_cons_self
  have hpa : PTE2PA (mkPte pa perm) = pa := PTE2PA_mkPte hpaheap.1 hperm
  have hinv := hgrown.ptInv_map hsep.inv hperm hflags hleaf
  have howned := ownedLeaves_insert hvpn hkeep hold hleaf
  rw [hpa] at howned
  refine ⟨⟨hinv, ?_, ?_, hgrown.bounds, hgrown.refreed⟩, ?_⟩
  · rw [ledger, ledger, hgrown.free]
    refine perm_iff_count.2 fun pg => ?_
    have htablecount := hgrown.tables.count_eq pg
    have hleafcount := howned.count_eq pg
    simp only [count_append, count_cons] at htablecount hleafcount ⊢
    omega
  · apply hgrown.frame.mono
    intro pg hpg
    rw [ledger, hgrown.free]
    rcases mem_append.1 hpg with hpg | hpg
    · exact mem_append_left _ (mem_append_left _ hpg)
    · exact mem_append_right _ (mem_append_left _ hpg)
  · intro vpn' hvpn'
    by_cases heq : vpn' = vpn
    · have hpage : SamePage s'.mem s.mem pa := hgrown.samePage hpaheap.1
        (fun h => (hfreeout _ h).2.2 mem_cons_self) (fun h => (htables _ h).2 mem_cons_self)
      rw [if_pos heq, view, hleaf vpn' hvpn', if_pos heq, Option.map_some, heq, hkeep,
        if_pos rfl, hpa, pageBytes_congr hpage]
    · rw [if_neg heq]
      apply hgrown.sameView_other hsep hvpn'
      rw [hleaf vpn' hvpn', if_neg heq]

theorem moved_mapShared (hsep : Sep s root keep held) (hkeep : keep vpn = false)
    (hperm : perm < 1024) (hflags : hasFlag perm (PTE_R ||| PTE_W ||| PTE_X) = true)
    (hgrown : Grown s' s root taken) (hleaf : ∀ vpn', vpn' < 512 ^ 3 → leafPte s'.mem root vpn' =
      if vpn' = vpn then some (mkPte pa perm) else leafPte s.mem root vpn') :
    Moved s' s root keep held held ∧ Mapped s' s root keep vpn ⟨mkPte pa perm, none⟩ := by
  have hinv := hgrown.ptInv_map hsep.inv hperm hflags hleaf
  have howned : ownedLeaves s'.mem root keep = ownedLeaves s.mem root keep := by
    apply ownedLeaves_congr
    intro vpn' hvpn'
    by_cases heq : vpn' = vpn
    · rw [heq, hkeep, if_neg Bool.false_ne_true, if_neg Bool.false_ne_true]
    · rw [hleaf vpn' hvpn', if_neg heq]
  refine ⟨⟨hinv, ?_, ?_, hgrown.bounds, hgrown.refreed⟩, ?_⟩
  · rw [ledger, ledger, howned, hgrown.free]
    refine perm_iff_count.2 fun pg => ?_
    have hcount := hgrown.tables.count_eq pg
    simp only [count_append] at hcount ⊢
    omega
  · apply hgrown.frame.mono
    intro pg hpg
    rw [ledger, hgrown.free]
    rcases mem_append.1 hpg with hpg | hpg
    · exact mem_append_left _ (mem_append_left _ hpg)
    · exact mem_append_right _ (mem_append_left _ hpg)
  · intro vpn' hvpn'
    by_cases heq : vpn' = vpn
    · rw [if_pos heq, view, hleaf vpn' hvpn', if_pos heq, Option.map_some, heq, hkeep]
      rfl
    · rw [if_neg heq]
      apply hgrown.sameView_other hsep hvpn'
      rw [hleaf vpn' hvpn', if_neg heq]

end Map

/-- The mappings after those of the pages `[vpn, vpn + n)` have been removed. -/
def Unmapped (s' s : Phys) (root : Nat) (keep : Nat → Bool) (vpn n : Nat) : Prop :=
  ∀ vpn', vpn' < 512 ^ 3 → view s'.mem root keep vpn' =
    if vpn ≤ vpn' ∧ vpn' < vpn + n then none else view s.mem root keep vpn'

section Unmap

variable {vpn t pte : Nat}

theorem leafPte_clear (hinv : PtInv s root) (hvpn : vpn < 512 ^ 3)
    (ht : node s.mem root 2 (vpn / 512) = some t) :
    LeafStored (s.mem.storeLE (t + 8 * (vpn % 512)) 8 0) s.mem root vpn none ∧
      PtInv { s with mem := s.mem.storeLE (t + 8 * (vpn % 512)) 8 0 } root := by
  have hstored := leafStored_storeLE hinv.toPtTree hvpn ht (v := 0) (by decide)
  rw [if_neg (by decide)] at hstored
  exact ⟨hstored, hinv.storeLeaf hvpn ht (by decide) (fun h => absurd h (by decide))⟩

section

variable (hsep : Sep s root keep held)
include hsep

theorem unmapped_clear (hstored : LeafStored m' s.mem root vpn none) :
    Unmapped { s with mem := m' } s root keep vpn 1 := by
  obtain ⟨_, _, _, _, _, htables, _⟩ := hsep.disjoint
  intro vpn' hvpn'
  have hleaf := hstored.leaf_eq vpn' hvpn'
  by_cases heq : vpn' = vpn
  · rw [if_pos (by omega), view, hleaf, if_pos heq, Option.map_none]
  · rw [if_neg (by omega)]
    rw [if_neg heq] at hleaf
    refine view_congr hleaf fun pte hpte hkeep => ?_
    have hin := hsep.leafHeap hvpn' hkeep hpte
    exact hstored.frame _ hin.2.1 (fun h => (htables _ h).1 hin.1)

/-- Clearing the entry of an owned page leaves that page in the kernel's hands. -/
theorem moved_unmap (hvpn : vpn < 512 ^ 3) (hkeep : keep vpn = true)
    (ht : node s.mem root 2 (vpn / 512) = some t) (hpte : leafPte s.mem root vpn = some pte) :
    Moved { s with mem := s.mem.storeLE (t + 8 * (vpn % 512)) 8 0 } s root keep
        (PTE2PA pte :: held) held ∧
      Unmapped { s with mem := s.mem.storeLE (t + 8 * (vpn % 512)) 8 0 } s root keep
        vpn 1 := by
  obtain ⟨hstored, hinv⟩ := leafPte_clear hsep.inv hvpn ht
  generalize s.mem.storeLE (t + 8 * (vpn % 512)) 8 0 = m' at hstored hinv
  have howned : (ownedLeaves s.mem root keep).Perm (PTE2PA pte :: ownedLeaves m' root keep) := by
    apply ownedLeaves_insert hvpn hkeep
    · rw [hstored.leaf_eq vpn hvpn, if_pos rfl]
    · intro vpn' hvpn'
      rw [hstored.leaf_eq vpn' hvpn']
      by_cases heq : vpn' = vpn
      · rw [if_pos heq, heq, hpte]
      · rw [if_neg heq, if_neg heq]
  refine ⟨⟨hinv, ?_, ?_, (SameBounds.refl s).setMem m', rfl⟩, unmapped_clear hsep hstored⟩
  · rw [ledger, ledger, hstored.tables_eq]
    refine perm_iff_count.2 fun pg => ?_
    have hcount := howned.count_eq pg
    simp only [count_append, count_cons] at hcount ⊢
    omega
  · apply hstored.frame.mono
    intro pg hpg
    exact mem_append_right _ (mem_append_left _ hpg)

/-- Clearing the entry of a page the table does not own. -/
theorem moved_unmapShared (hvpn : vpn < 512 ^ 3) (hkeep : keep vpn = false)
    (ht : node s.mem root 2 (vpn / 512) = some t) :
    Moved { s with mem := s.mem.storeLE (t + 8 * (vpn % 512)) 8 0 } s root keep held held ∧
      Unmapped { s with mem := s.mem.storeLE (t + 8 * (vpn % 512)) 8 0 } s root keep
        vpn 1 := by
  obtain ⟨hstored, hinv⟩ := leafPte_clear hsep.inv hvpn ht
  generalize s.mem.storeLE (t + 8 * (vpn % 512)) 8 0 = m' at hstored hinv
  have howned : ownedLeaves m' root keep = ownedLeaves s.mem root keep := by
    apply ownedLeaves_congr
    intro vpn' hvpn'
    by_cases heq : vpn' = vpn
    · rw [heq, hkeep, if_neg Bool.false_ne_true, if_neg Bool.false_ne_true]
    · rw [hstored.leaf_eq vpn' hvpn', if_neg heq]
  refine ⟨⟨hinv, ?_, ?_, (SameBounds.refl s).setMem m', rfl⟩, unmapped_clear hsep hstored⟩
  · rw [ledger, ledger, hstored.tables_eq, howned]
  · apply hstored.frame.mono
    intro pg hpg
    exact mem_append_right _ (mem_append_left _ hpg)

/-- Rewriting the flags of an entry moves nothing and changes no byte. -/
theorem moved_reflag {v : Nat} (hvpn : vpn < 512 ^ 3) (ht : node s.mem root 2 (vpn / 512) = some t)
    (hpte : leafPte s.mem root vpn = some pte) (hv : v < 256 ^ 8) (hvalid : v % 2 = 1)
    (hflags : hasFlag v (PTE_R ||| PTE_W ||| PTE_X) = true) (hpa : PTE2PA v = PTE2PA pte)
    {s' : Phys} (hs' : s' = { s with mem := s.mem.storeLE (t + 8 * (vpn % 512)) 8 v }) :
    Moved s' s root keep held held ∧ (∀ vpn', vpn' < 512 ^ 3 → leafPte s'.mem root vpn' =
        if vpn' = vpn then some v else leafPte s.mem root vpn') ∧
      ∀ vpn' pte', vpn' < 512 ^ 3 → keep vpn' = true →
        leafPte s.mem root vpn' = some pte' → SamePage s'.mem s.mem (PTE2PA pte') := by
  have hstored := leafStored_storeLE hsep.inv.toPtTree hvpn ht hv
  rw [if_pos hvalid] at hstored
  have hinv := hsep.inv.storeLeaf hvpn ht hv fun _ => hflags
  rw [← hs'] at hinv
  have hmem : s'.mem = s.mem.storeLE (t + 8 * (vpn % 512)) 8 v := by rw [hs']
  rw [← hmem] at hstored
  obtain ⟨_, _, _, _, _, htables, _⟩ := hsep.disjoint
  have howned : ownedLeaves s'.mem root keep = ownedLeaves s.mem root keep := by
    apply filterMap_congr
    intro vpn' hvpn'
    rw [mem_range, NVPN_eq] at hvpn'
    rw [hstored.leaf_eq vpn' hvpn']
    by_cases heq : vpn' = vpn
    · rw [if_pos heq, heq, hpte, Option.map_some, Option.map_some, hpa]
    · rw [if_neg heq]
  refine ⟨⟨hinv, ?_, ?_, ?_, ?_⟩, hstored.leaf_eq, ?_⟩
  · rw [ledger, ledger, hstored.tables_eq, howned, hs']
  · apply hstored.frame.mono
    intro pg hpg
    exact mem_append_right _ (mem_append_left _ hpg)
  · rw [hs']
    exact (SameBounds.refl s).setMem _
  · rw [hs']
  · intro vpn' pte' hvpn' hkeep hpte'
    have hin := hsep.leafHeap hvpn' hkeep hpte'
    exact hstored.frame _ hin.2.1 (fun h => (htables _ h).1 hin.1)

end

end Unmap

end Primitives

end EAFITos
