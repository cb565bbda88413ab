/-
The three-level page table as a finite map from virtual pages to physical pages and
flags: what `walk`, `mappages` and `uvmunmap` do to it, whatever table they are given.
-/
import EAFITos.ProcTable
import EAFITos.Transition

namespace EAFITos

open List Prog Option

variable {vpn n t : Nat} {doFree : Bool}

/-- A map from virtual pages to a physical page and flags. -/
def PageMap : Type := Nat → Option (Nat × Nat)

namespace PageMap

/-- `n` pages from `vpn` on go to the pages from `pa` on. -/
def insertRange (m : PageMap) (vpn n pa flags : Nat) : PageMap := fun v =>
  if vpn ≤ v ∧ v < vpn + n then some (pa + (v - vpn) * PGSIZE, flags) else m v

def eraseRange (m : PageMap) (vpn n : Nat) : PageMap := fun v =>
  if vpn ≤ v ∧ v < vpn + n then none else m v

end PageMap

/-- The map that a page table in memory stands for. -/
def entries (s : Phys) (root : Nat) : PageMap := fun vpn =>
  (leafPte s.mem root vpn).map fun pte => (PTE2PA pte, PTE_FLAGS pte)

/-- A lookup as the kernel does it: `walk` without allocation, and then the entry. -/
def lookup (root va : Nat) : Prog Phys (Option (Nat × Nat)) := do
  match ← walk root va false with
  | none => pure none
  | some slot => do
    let pte ← loadPte slot
    if hasFlag pte PTE_V then pure (some (PTE2PA pte, PTE_FLAGS pte)) else pure none

/-- The pages mapped at `[vpn, vpn + n)` may be given to the allocator: they are pages of
its range, none of them free, a table or mapped twice. -/
structure Disposable (s : Phys) (root vpn n : Nat) : Prop where
  heap : ∀ v pte, vpn ≤ v → v < vpn + n → v < 512 ^ 3 → leafPte s.mem root v = some pte →
    HeapPage s (PTE2PA pte) ∧ PTE2PA pte ∉ s.freelist ++ tablePages s.mem root
  once : ∀ v v' pte pte', vpn ≤ v → v < v' → v' < vpn + n → v' < 512 ^ 3 →
    leafPte s.mem root v = some pte → leafPte s.mem root v' = some pte' →
    PTE2PA pte ≠ PTE2PA pte'

section Spec

variable {s s' : Phys} {root va pa perm : Nat}

theorem holds_lookup (hva : va < MAXVA) {post : Option (Nat × Nat) → Phys → Prop}
    {onPanic : String → Prop} :
    (lookup root va).Holds s post onPanic ↔ post (entries s root (va / 4096)) s := by
  rw [lookup, holds_bind, holds_walk_noalloc hva, entries]
  rcases pteSlot_cases s.mem root va with ⟨hslot, hleaf⟩ | ⟨t, ht, hslot, hleaf⟩
  · rw [hslot, hleaf]
    exact holds_pure _
  · rw [hslot, hleaf]
    simp only [holds_bind, loadPte, holds_read, hasFlag_V, decide_eq_true_eq]
    split
    · exact holds_pure _
    · exact holds_pure _

theorem fill_samePage {pg : Nat} (c : UInt8) (hinv : PtTree s root) (hpg : pg % 4096 = 0)
    (hout : pg ∉ tablePages s.mem root) :
    ∀ t ∈ tablePages s.mem root, SamePage (s.mem.fill pg c 4096) s.mem t := by
  intro t ht
  refine fill_frame s.mem c hpg t (hinv.table_heap ht).1 fun hin => hout ?_
  rw [mem_singleton] at hin
  exact hin ▸ ht

/-- Giving a page outside the tables to the allocator. -/
theorem PtTree.free {pg : Nat} (hinv : PtTree s root) (hheap : HeapPage s pg)
    (hout : pg ∉ s.freelist ++ tablePages s.mem root) (refreed : Bool) :
    PtTree { s with
        mem := s.mem.fill pg 1 4096
        freelist := pg :: s.freelist
        refreed := refreed } root := by
  rw [mem_append, not_or] at hout
  refine hinv.congr (fill_samePage 1 hinv hheap.1 hout.2) ?_ ?_ ⟨rfl, rfl, rfl⟩
  · rw [cons_append, nodup_cons, mem_append, not_or]
    exact ⟨hout, hinv.nodup⟩
  · intro x hx
    rcases mem_cons.mp hx with rfl | hx
    · exact hheap
    · exact hinv.free_heap hx

/-- The leaves of a table after those of `n` pages from `vpn` on are gone. -/
def LeavesErased (s' s : Phys) (root vpn n : Nat) : Prop :=
  ∀ v, v < 512 ^ 3 → leafPte s'.mem root v =
    if vpn ≤ v ∧ v < vpn + n then none else leafPte s.mem root v

/-- Clearing one entry. -/
theorem PtTree.unmap (hinv : PtTree s root) (hvpn : vpn < 512 ^ 3)
    (ht : node s.mem root 2 (vpn / 512) = some t) :
    PtTree { s with mem := s.mem.storeLE (t + 8 * (vpn % 512)) 8 0 } root ∧
      LeavesErased { s with mem := s.mem.storeLE (t + 8 * (vpn % 512)) 8 0 } s root vpn 1 ∧
      tablePages (s.mem.storeLE (t + 8 * (vpn % 512)) 8 0) root = tablePages s.mem root := by
  have hstored := leafStored_storeLE hinv hvpn ht (v := 0) (by decide)
  refine ⟨hinv.storeLeaf hvpn ht (by decide), fun v hv => ?_, hstored.tables_eq⟩
  rw [hstored.leaf_eq v hv]
  by_cases heq : v = vpn
  · rw [if_pos heq, if_neg (by decide), if_pos (by omega)]
  · rw [if_neg heq, if_neg (by omega)]

/-- One round of the loop of `uvmunmap`: the page is no longer mapped, and what is left of
the range may still be given to the allocator. -/
structure Round (s' s : Phys) (root vpn : Nat) (doFree : Bool) (n : Nat) : Prop where
  tree : PtTree s' root
  leaves : LeavesErased s' s root vpn 1
  rest : (doFree = true → Disposable s root vpn (n + 1)) →
    doFree = true → Disposable s' root (vpn + 1) n

theorem Round.of_none (hinv : PtTree s root) (hnone : leafPte s.mem root vpn = none) :
    Round s s root vpn doFree n := by
  refine ⟨hinv, fun v _ => ?_, fun hall hdo => ?_⟩
  · split
    · have heq : v = vpn := by omega
      rw [heq, hnone]
    · rfl
  · have hold := hall hdo
    exact ⟨fun v pte hlo hhi => hold.heap v pte (by omega) (by omega),
      fun v v' pte pte' hlo hlt hhi => hold.once v v' pte pte' (by omega) hlt (by omega)⟩

section

variable (hinv : PtTree s root) (hvpn : vpn < 512 ^ 3) (ht : node s.mem root 2 (vpn / 512) = some t)
include hinv hvpn ht

theorem Round.of_clear :
    Round { s with mem := s.mem.storeLE (t + 8 * (vpn % 512)) 8 0 } s root vpn false n := by
  obtain ⟨htree, hleaves, _⟩ := hinv.unmap hvpn ht
  exact ⟨htree, hleaves, nofun⟩

theorem Round.of_free {pte : Nat} (hpte : leafPte s.mem root vpn = some pte)
    (hrange : Disposable s root vpn (n + 1)) (refreed : Bool) :
    Round { s with
        mem := (s.mem.fill (PTE2PA pte) 1 4096).storeLE (t + 8 * (vpn % 512)) 8 0
        freelist := PTE2PA pte :: s.freelist
        refreed := refreed } s root vpn true n := by
  obtain ⟨hheap, hout⟩ := hrange.heap vpn pte (le_refl _) (by omega) hvpn hpte
  have hfreed := hinv.free hheap hout refreed
  have hsame := fill_samePage 1 hinv hheap.1 fun hin => hout (mem_append_right _ hin)
  have hnode : node (s.mem.fill (PTE2PA pte) 1 4096) root 2 (vpn / 512) = some t := by
    rw [node_congr hsame (by decide) (by omega)]
    exact ht
  obtain ⟨htree, hleaves, htables⟩ := hfreed.unmap hvpn hnode
  have hleaf : ∀ v, v < 512 ^ 3 → leafPte (s.mem.fill (PTE2PA pte) 1 4096) root v =
      leafPte s.mem root v := fun v hv => leafPte_congr hsame hv
  have herased : LeavesErased { s with
      mem := (s.mem.fill (PTE2PA pte) 1 4096).storeLE (t + 8 * (vpn % 512)) 8 0
      freelist := PTE2PA pte :: s.freelist
      refreed := refreed } s root vpn 1 := by
    intro v hv
    rw [hleaves v hv]
    split
    · rfl
    · exact hleaf v hv
  refine ⟨htree, herased, fun _ _ => ⟨?_, ?_⟩⟩
  · intro v pte' hlo hhi hv hpte'
    rw [herased v hv, if_neg (by omega)] at hpte'
    obtain ⟨hheap', hout'⟩ := hrange.heap v pte' (by omega) (by omega) hv hpte'
    refine ⟨hheap', ?_⟩
    have hne := hrange.once vpn v pte pte' (le_refl _) (by omega) (by omega) hv hpte hpte'
    rw [htables, tablePages_congr hsame, cons_append, mem_cons, not_or]
    exact ⟨fun heq => hne heq.symm, hout'⟩
  · intro v v' p p' hlo hlt hhi hv hp hp'
    rw [herased v (by omega), if_neg (by omega)] at hp
    rw [herased v' hv, if_neg (by omega)] at hp'
    exact hrange.once v v' p p' (by omega) hlt (by omega) hv hp hp'

end

theorem LeavesErased.succ {s1 : Phys} (h : LeavesErased s1 s root vpn 1)
    (h' : LeavesErased s' s1 root (vpn + 1) n) : LeavesErased s' s root vpn (n + 1) := by
  intro v hv
  rw [h' v hv, h v hv]
  by_cases hfirst : vpn ≤ v ∧ v < vpn + 1
  · rw [if_neg (by omega), if_pos hfirst, if_pos (by omega)]
  · rw [if_neg hfirst]
    by_cases hrest : vpn + 1 ≤ v ∧ v < vpn + 1 + n
    · rw [if_pos hrest, if_pos (by omega)]
    · rw [if_neg hrest, if_neg (by omega)]

/-- `uvmunmap` on any table, by induction on the pages still to go. -/
theorem uvmunmapLoop_tree (n : Nat) (hinv : PtTree s root) (halign : va % 4096 = 0)
    (hfree : doFree = true → Disposable s root (va / 4096) n) :
    (uvmunmapLoop root doFree n va).Holds s
      (fun _ s' => PtTree s' root ∧ LeavesErased s' s root (va / 4096) n) (fun _ => True) := by
  induction n generalizing s va with
  | zero =>
    rw [uvmunmapLoop, holds_pure]
    refine ⟨hinv, fun v _ => ?_⟩
    rw [if_neg (by omega)]
  | succ n ih =>
    rw [uvmunmapLoop, holds_bind]
    by_cases hva : va < MAXVA
    · have hmax : MAXVA = 2 ^ 38 := rfl
      have hvpn : va / 4096 < 512 ^ 3 := by omega
      have hnext : (va + PGSIZE) / 4096 = va / 4096 + 1 := by
        rw [PGSIZE]
        omega
      -- whatever became of the first page, the rest of the loop removes the others
      have hrest : ∀ s1, Round s1 s root (va / 4096) doFree n →
          (uvmunmapLoop root doFree n (va + PGSIZE)).Holds s1
            (fun _ s' => PtTree s' root ∧ LeavesErased s' s root (va / 4096) (n + 1))
            (fun _ => True) := by
        intro s1 hround
        have halign' : (va + PGSIZE) % 4096 = 0 := by
          rw [PGSIZE]
          omega
        have hloop := ih hround.tree halign' (hnext ▸ hround.rest hfree)
        rw [hnext] at hloop
        exact hloop.imp fun _ s' h => ⟨h.1, hround.leaves.succ h.2⟩
      rw [holds_walk_noalloc hva]
      rcases pteSlot_cases s.mem root va with ⟨hslot, hleaf⟩ | ⟨t, ht, hslot, hleaf⟩
      · rw [hslot]
        exact hrest s (.of_none hinv hleaf)
      · rw [hslot]
        simp only [holds_bind, loadPte, holds_read, hasFlag_V, decide_eq_false_iff_not, holds_ite]
        constructor
        · intro hinvalid
          rw [if_neg hinvalid] at hleaf
          exact hrest s (.of_none hinv hleaf)
        · intro hvalid
          rw [if_pos (not_not.1 hvalid)] at hleaf
          cases doFree with
          | false =>
            simp only [Bool.false_eq_true, false_implies, storePte,
              holds_update, not_false_eq_true, true_implies, true_and]
            exact hrest _ (.of_clear hinv hvpn ht)
          | true =>
            have hrange := hfree rfl
            have hheap := (hrange.heap _ _ (le_refl _) (by omega) hvpn hleaf).1
            simp only [true_implies, not_true_eq_false, false_implies, and_true]
            rw [holds_kfree hheap]
            simp only [storePte, holds_update]
            exact hrest _ (.of_free hinv hvpn ht hleaf hrange _)
    · rw [walk, if_pos (by omega), holds_panic]
      trivial

/-- The leaves of a table after `n` pages from `vpn` on have been mapped. -/
def LeavesAdded (s' s : Phys) (root vpn n pa perm : Nat) : Prop :=
  ∀ v, v < 512 ^ 3 → leafPte s'.mem root v =
    if vpn ≤ v ∧ v < vpn + n then some (mkPte (pa + (v - vpn) * 4096) perm)
    else leafPte s.mem root v

theorem LeavesAdded.succ {s1 : Phys} (h : ∀ v, v < 512 ^ 3 → leafPte s1.mem root v =
      if v = vpn then some (mkPte pa perm) else leafPte s.mem root v)
    (h' : LeavesAdded s' s1 root (vpn + 1) n (pa + 4096) perm) :
    LeavesAdded s' s root vpn (n + 1) pa perm := by
  intro v hv
  rw [h' v hv, h v hv]
  by_cases hfirst : v = vpn
  · rw [if_neg (by omega), if_pos hfirst, if_pos (by omega), hfirst, Nat.sub_self, Nat.zero_mul,
      Nat.add_zero]
  · rw [if_neg hfirst]
    by_cases hrest : vpn + 1 ≤ v ∧ v < vpn + 1 + n
    · have hpa : pa + 4096 + (v - (vpn + 1)) * 4096 = pa + (v - vpn) * 4096 := by omega
      rw [if_pos hrest, if_pos (by omega), hpa]
    · rw [if_neg hrest, if_neg (by omega)]

/-- `mappages` on any table, by induction on the pages still to be mapped. -/
theorem mappagesLoop_tree (n : Nat) (hinv : PtTree s root) (hperm : perm < 1024)
    (hpa : pa + n * 4096 ≤ 2 ^ 64) :
    (mappagesLoop root perm n va pa).Holds s (fun r s' => PtTree s' root ∧
        ((r = 0 ∧ LeavesAdded s' s root (va / 4096) n pa perm) ∨
          (r = -1 ∧ 0 < n ∧ (n = 1 → SameLeaves s' s root)))) (fun _ => True) := by
  induction n generalizing s va pa with
  | zero =>
    rw [mappagesLoop, holds_pure]
    refine ⟨hinv, Or.inl ⟨rfl, fun v _ => ?_⟩⟩
    rw [if_neg (by omega)]
  | succ n ih =>
    by_cases hva : va < MAXVA
    · refine holds_mappagesLoop_succ hinv hva (by omega) hperm (fun _ => trivial) ?_ ?_
      · intro s1 taken _ hgrown _ _ hleaves
        exact ⟨hgrown.inv, Or.inr ⟨rfl, Nat.succ_pos n, fun _ => hleaves⟩⟩
      · intro s1 taken _ hgrown _ hleaf
        have hnext : (va + PGSIZE) / 4096 = va / 4096 + 1 := by
          rw [PGSIZE]
          omega
        have hpa' : pa + PGSIZE + n * 4096 ≤ 2 ^ 64 := by
          rw [PGSIZE]
          omega
        refine (ih hgrown.inv hpa').imp fun r s' h => ⟨h.1, h.2.imp ?_ ?_⟩
        · exact fun h => ⟨h.1, LeavesAdded.succ hleaf (hnext ▸ h.2)⟩
        · exact fun h => ⟨h.1, Nat.succ_pos n, fun hone => by omega⟩
    · rw [mappagesLoop, holds_bind, walk, if_pos (by omega), holds_panic]
      trivial

/-- The operations on a page table, with their arguments. -/
inductive PtOp where
  | walk (va : Nat)
  | map (va size pa perm : Nat)
  | unmap (va npages : Nat) (doFree : Bool)

/-- One operation on the table at `root`; one that panics is no step. -/
def PtOp.next (root : Nat) (s : Phys) : PtOp → Option Phys
  | .walk va =>
    match EAFITos.walk root va true s with
    | .ok _ s' => some s'
    | _ => none
  | .map va size pa perm =>
    match mappages root va size pa perm s with
    | .ok _ s' => some s'
    | _ => none
  | .unmap va npages doFree =>
    match uvmunmap root va npages doFree s with
    | .ok _ s' => some s'
    | _ => none

/-- Flags are ten bits and addresses 64, and only pages that may be freed are freed. -/
def PtOp.Ok (root : Nat) (s : Phys) : PtOp → Prop
  | .walk _ => True
  | .map _ size pa perm => perm < 1024 ∧ pa + size ≤ 2 ^ 64
  | .unmap va npages doFree => doFree = true → Disposable s root (va / PGSIZE) npages

/-- The states in which `uvmcreate` has just made the table at `root`. -/
def Fresh (root : Nat) (s : Phys) : Prop :=
  ∃ s0, Good s0 s0.freelist ∧ s0.phystop ≤ 2 ^ 56 ∧ uvmcreate s0 = .ok (some root) s

/-- The tables that sequences of operations make. -/
def PageTable (root : Nat) : Phys → Prop :=
  Machine.Reach (PtOp.next root) (PtOp.Ok root) (Fresh root)

theorem walk_tree (hinv : PtTree s root) :
    (walk root va true).Holds s (fun _ s' => PtTree s' root ∧ SameLeaves s' s root)
      (fun _ => True) := by
  by_cases hva : va < MAXVA
  · refine (walk_alloc hinv hva).mono ?_ (fun _ _ => trivial)
    rintro r s1 ⟨taken, hgrown, hleaves, _⟩
    exact ⟨hgrown.inv, hleaves⟩
  · rw [walk, if_pos (by omega), holds_panic]
    trivial

theorem mappages_tree {size : Nat} (hinv : PtTree s root) (hperm : perm < 1024)
    (hpa : pa + size ≤ 2 ^ 64) :
    (mappages root va size pa perm).Holds s (fun r s' => va % 4096 = 0 ∧ PtTree s' root ∧
        ((r = 0 ∧ LeavesAdded s' s root (va / 4096) (size / 4096) pa perm) ∨
          (r = -1 ∧ 0 < size / 4096 ∧ (size / 4096 = 1 → SameLeaves s' s root))))
      (fun _ => True) := by
  have hsize : PGSIZE = 4096 := rfl
  simp only [mappages, holds_ite, holds_panic, implies_true, true_and]
  intro halign _ _
  refine (mappagesLoop_tree (size / PGSIZE) hinv hperm (by rw [hsize]; omega)).imp ?_
  exact fun r s' h => ⟨by rw [hsize] at halign; omega, h⟩

theorem uvmunmap_tree (hinv : PtTree s root)
    (hfree : doFree = true → Disposable s root (va / 4096) n) :
    (uvmunmap root va n doFree).Holds s
      (fun _ s' => PtTree s' root ∧ LeavesErased s' s root (va / 4096) n) (fun _ => True) := by
  have hsize : PGSIZE = 4096 := rfl
  simp only [uvmunmap, holds_ite, holds_panic, implies_true, true_and]
  intro halign
  rw [hsize] at halign
  exact uvmunmapLoop_tree n hinv (by omega) hfree

theorem Fresh.tree (h : Fresh root s) : PtTree s root := by
  obtain ⟨s0, hgood, hbound, hcreate⟩ := h
  have hgood' : Good s0 (s0.freelist ++ []) := by rwa [append_nil]
  obtain ⟨hr, _⟩ | ⟨root', hr, hsep, _⟩ :=
    (uvmcreate_spec (fun _ => false) hgood' hbound).of_ok hcreate
  · cases hr
  · cases hr
    exact hsep.inv.toPtTree

/-- Every operation leaves a tree. -/
theorem PtOp.next_tree {op : PtOp} (hinv : PtTree s root) (hok : op.Ok root s)
    (hnext : op.next root s = some s') : PtTree s' root := by
  cases op with
  | walk va =>
    rw [PtOp.next] at hnext
    split at hnext
    · rename_i hrun
      cases hnext
      exact ((walk_tree hinv).of_ok hrun).1
    · cases hnext
  | map va size pa perm =>
    rw [PtOp.next] at hnext
    split at hnext
    · rename_i hrun
      cases hnext
      exact ((mappages_tree hinv hok.1 hok.2).of_ok hrun).2.1
    · cases hnext
  | unmap va npages doFree =>
    rw [PtOp.next] at hnext
    split at hnext
    · rename_i hrun
      cases hnext
      exact ((uvmunmap_tree hinv hok).of_ok hrun).1
    · cases hnext

theorem PageTable.tree (h : PageTable root s) : PtTree s root :=
  Machine.Reach.invariant (P := fun s => PtTree s root) (fun _ hfresh => hfresh.tree)
    (fun _ _ _ hinv hok hnext => PtOp.next_tree hinv hok hnext) h

theorem entries_congr {vpn' : Nat} (h : leafPte s'.mem root vpn' = leafPte s.mem root vpn) :
    entries s' root vpn' = entries s root vpn := by
  rw [entries, entries, h]

theorem LeavesErased.entries {v : Nat} (h : LeavesErased s' s root vpn n) (hv : v < 512 ^ 3) :
    EAFITos.entries s' root v = (EAFITos.entries s root).eraseRange vpn n v := by
  rw [PageMap.eraseRange, EAFITos.entries, h v hv]
  split
  · rfl
  · rfl

theorem LeavesAdded.entries {v : Nat} (h : LeavesAdded s' s root vpn n pa perm)
    (hperm : perm < 1024) (hv : v < 512 ^ 3) :
    EAFITos.entries s' root v =
      (EAFITos.entries s root).insertRange vpn n (PGROUNDDOWN pa) (perm ||| PTE_V) v := by
  have hsize : PGSIZE = 4096 := rfl
  rw [PageMap.insertRange, EAFITos.entries, h v hv]
  split
  · have hlow := or_one_lt hperm
    have hpage : PTE2PA (mkPte (pa + (v - vpn) * 4096) perm) =
        PGROUNDDOWN pa + (v - vpn) * 4096 := by
      rw [mkPte_eq hperm, PTE2PA, PGROUNDDOWN]
      omega
    rw [map_some, PTE_FLAGS_mkPte hperm, hpage, hsize]
  · rfl

/-- A page table is a finite map: lookups return its entries, a successful `mappages` adds
exactly its pages, `uvmunmap` removes exactly its pages, and a `mappages` of one page that
fails and a `walk` that only allocates change nothing. -/
theorem page_table_is_map (h : PageTable root s) :
    (∀ va, va < MAXVA → lookup root va s = .ok (entries s root (va / PGSIZE)) s) ∧
    (∀ va size pa perm s', perm < 1024 → pa + size ≤ 2 ^ 64 →
      mappages root va size pa perm s = .ok 0 s' → ∀ vpn, vpn < MAXVA / PGSIZE →
        entries s' root vpn = (entries s root).insertRange (va / PGSIZE) (size / PGSIZE)
          (PGROUNDDOWN pa) (perm ||| PTE_V) vpn) ∧
    (∀ va npages doFree s', (doFree = true → Disposable s root (va / PGSIZE) npages) →
      uvmunmap root va npages doFree s = .ok ⟨⟩ s' → ∀ vpn, vpn < MAXVA / PGSIZE →
        entries s' root vpn = (entries s root).eraseRange (va / PGSIZE) npages vpn) ∧
    (∀ va pa perm s', perm < 1024 → pa + PGSIZE ≤ 2 ^ 64 →
      mappages root va PGSIZE pa perm s = .ok (-1) s' → ∀ vpn, vpn < MAXVA / PGSIZE →
        entries s' root vpn = entries s root vpn) ∧
    ∀ va r s', walk root va true s = .ok r s' → ∀ vpn, vpn < MAXVA / PGSIZE →
      entries s' root vpn = entries s root vpn := by
  have hinv := h.tree
  have hlt : ∀ vpn, vpn < MAXVA / PGSIZE → vpn < 512 ^ 3 := by
    intro vpn hvpn
    have hpages : MAXVA / PGSIZE = 2 ^ 26 := by decide
    omega
  refine ⟨?_, ?_, ?_, ?_, ?_⟩
  · intro va hva
    have hspec : (lookup root va).Holds s
        (fun r s' => r = entries s root (va / PGSIZE) ∧ s' = s) (fun _ => False) :=
      (holds_lookup hva).mpr ⟨rfl, rfl⟩
    obtain ⟨r, s', hrun, rfl, rfl⟩ := hspec.exists_ok
    exact hrun
  · intro va size pa perm s' hperm hpa hrun vpn hvpn
    obtain ⟨_, _, ⟨_, hadded⟩ | ⟨hr, _⟩⟩ := (mappages_tree hinv hperm hpa).of_ok hrun
    · exact hadded.entries hperm (hlt vpn hvpn)
    · cases hr
  · intro va npages doFree s' hfree hrun vpn hvpn
    exact ((uvmunmap_tree hinv hfree).of_ok hrun).2.entries (hlt vpn hvpn)
  · intro va pa perm s' hperm hpa hrun vpn hvpn
    obtain ⟨_, _, ⟨hr, _⟩ | ⟨_, _, hsame⟩⟩ := (mappages_tree hinv hperm hpa).of_ok hrun
    · cases hr
    · exact entries_congr (hsame (by decide) vpn (hlt vpn hvpn))
  · intro va r s' hrun vpn hvpn
    exact entries_congr (((walk_tree hinv).of_ok hrun).2 vpn (hlt vpn hvpn))

/-- A memory with four free pages. -/
def fourPages : Phys where
  mem := fun _ => 0
  freelist := [0x80100000, 0x80101000, 0x80102000, 0x80103000]
  refreed := false
  kend := 0x80100000
  phystop := PHYSTOP
  trampoline := 0x80007000

theorem fourPages_good : Good fourPages fourPages.freelist := by
  refine ⟨by decide, fun pg hpg => ?_⟩
  have hpages : pg = 0x80100000 ∨ pg = 0x80101000 ∨ pg = 0x80102000 ∨ pg = 0x80103000 := by
    simpa [fourPages] using hpg
  rcases hpages with rfl | rfl | rfl | rfl <;> exact ⟨by decide, by decide, by decide⟩

/-- Mapping one page into a new table. -/
theorem page_table_is_map_first : ∃ root s s', PageTable root s ∧
    mappages root 0x1000 PGSIZE 0x80200000 PTE_R s = .ok 0 s' ∧
    entries s' root 1 = some (0x80200000, PTE_R ||| PTE_V) := by
  obtain ⟨root, s, hcreate, hcheck⟩ : ∃ root s, uvmcreate fourPages = .ok (some root) s ∧
      (mappages root 0x1000 PGSIZE 0x80200000 PTE_R s).value? = some 0 :=
    ⟨_, _, rfl, by decide +kernel⟩
  cases hmap : mappages root 0x1000 PGSIZE 0x80200000 PTE_R s with
  | ok r s' =>
    rw [hmap] at hcheck
    obtain rfl := some.inj hcheck
    have htable : PageTable root s := .start ⟨fourPages, fourPages_good, by decide, hcreate⟩
    have hentry := (page_table_is_map htable).2.1 0x1000 PGSIZE 0x80200000 PTE_R s' (by decide)
      (by decide) hmap 1 (by decide)
    refine ⟨root, s, s', htable, hmap, hentry.trans ?_⟩
    rw [PageMap.insertRange, if_pos (by decide)]
    rfl
  | panic => simp [hmap, Outcome.value?] at hcheck
  | stuck => simp [hmap, Outcome.value?] at hcheck

end Spec

end EAFITos
