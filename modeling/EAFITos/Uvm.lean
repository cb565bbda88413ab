/-
What the user-memory operations of `kernel/vm.c` do to a page table and to the
ledger of its pages.
-/
import EAFITos.Ledger

namespace EAFITos

open List Prog Option

variable {vpn n pa perm : Nat}

variable {s s' : Phys} {root va : Nat} {keep : Nat → Bool} {held : List Nat}

variable {s1 : Phys} {oldsz newsz : Nat}

variable {vpn' sz pg xperm top : Nat} {rest : List Nat}

/-- The virtual page of the trapframe; user memory lies below it. -/
def TFVPN : Nat := 2 ^ 26 - 2

theorem vpn_lt {va : Nat} (hva : va < MAXVA) : va / 4096 < 512 ^ 3 := by
  have hva' : va < 2 ^ 38 := hva
  omega

/-- Either there is no table for `va`, or its entry can be read and decides the
mapping. -/
theorem pteSlot_cases (m : ByteMem) (root va : Nat) :
    (pteSlot m root va = none ∧ leafPte m root (va / 4096) = none) ∨
      ∃ t, node m root 2 (va / 4096 / 512) = some t ∧
        pteSlot m root va = some (t + 8 * (va / 4096 % 512)) ∧ leafPte m root (va / 4096) =
          if m.loadLE (t + 8 * (va / 4096 % 512)) 8 % 2 = 1 then
            some (m.loadLE (t + 8 * (va / 4096 % 512)) 8) else none := by
  have hdigits : va / 4096 / 512 = va / 2 ^ 21 := div_pow_succ va 12
  cases ht : node m root 2 (va / 2 ^ 21) with
  | none =>
    left
    exact ⟨by rw [pteSlot, ht, map_none], leafPte_of_no_node ht⟩
  | some t =>
    right
    refine ⟨t, by rw [hdigits, ht], ?_, leafPte_of_node ht⟩
    rw [pteSlot, ht, map_some, PX_zero]

theorem missing_le (m : ByteMem) (root va : Nat) : missing m root va ≤ 2 := by
  rw [missing]
  split <;> split <;> omega

/-- Mapping a held page. -/
theorem mappages_held (hsep : Sep s root keep (pa :: held)) (hva : va < MAXVA)
    (halign : va % 4096 = 0) (hperm : perm < 1024)
    (hflags : hasFlag perm (PTE_R ||| PTE_W ||| PTE_X) = true) (hkeep : keep (va / 4096) = true) :
    (mappages root va PGSIZE pa perm).Holds s (fun r s' => leafPte s.mem root (va / 4096) = none ∧
        ((r = 0 ∧ Moved s' s root keep held (pa :: held) ∧
            Mapped s' s root keep (va / 4096) ⟨mkPte pa perm, some (pageBytes s.mem pa)⟩ ∧
            s'.freelist.length ≤ s.freelist.length ∧ s.freelist.length ≤ s'.freelist.length + 2 ∧
            tablePages s.mem root ⊆ tablePages s'.mem root) ∨
          (r = -1 ∧ Moved s' s root keep (pa :: held) (pa :: held) ∧
            SameView s' s root keep ∧ s.freelist.length < 2)))
      (fun message => message = "mappages: remap" ∧ (leafPte s.mem root (va / 4096)).isSome) := by
  have hpa := hsep.inv.heapPage_lt (hsep.heldHeap mem_cons_self)
  have hle := missing_le s.mem root va
  refine (mappages_page hsep.inv.toPtTree hva halign (by omega) hperm).imp ?_
  rintro r s' ⟨hold, taken, hgrown, ⟨hr, hlen, hleaf⟩ | ⟨hr, hnil, hlen, hleaves⟩⟩
  · obtain ⟨hmoved, hmapped⟩ := moved_map hsep (vpn_lt hva) hkeep hperm hflags hgrown hold hleaf
    have hfree := congrArg List.length hgrown.free
    rw [length_append] at hfree
    exact ⟨hold, Or.inl ⟨hr, hmoved, hmapped, by omega, by omega,
      fun pg hpg => hgrown.tables.mem_iff.2 (mem_append_right _ hpg)⟩⟩
  · obtain ⟨hmoved, hview⟩ := moved_grow hsep hgrown hleaves
    refine ⟨hold, Or.inr ⟨hr, hmoved, hview, ?_⟩⟩
    rw [hgrown.free, hnil, append_nil]
    omega

theorem Unmapped.succ (hfirst : Unmapped s1 s root keep vpn 1)
    (hrest : Unmapped s' s1 root keep (vpn + 1) n) :
    Unmapped s' s root keep vpn (n + 1) := by
  intro vpn' hvpn'
  rw [hrest vpn' hvpn', hfirst vpn' hvpn']
  by_cases hin : vpn ≤ vpn' ∧ vpn' < vpn + (n + 1)
  · rw [if_pos hin]
    by_cases heq : vpn' = vpn
    · rw [if_neg (by omega), if_pos (by omega)]
    · rw [if_pos (by omega)]
  · rw [if_neg hin, if_neg (by omega), if_neg (by omega)]

theorem unmapped_of_none (hnone : leafPte s.mem root vpn = none) :
    Unmapped s s root keep vpn 1 := by
  intro vpn' hvpn'
  by_cases heq : vpn' = vpn
  · rw [if_pos (by omega), heq, view, hnone, map_none]
  · rw [if_neg (by omega)]

/-- The pages that were mapped in `[vpn, vpn + n)` are free. -/
structure Released (s' s : Phys) (root vpn n : Nat) : Prop where
  grown : s.freelist ⊆ s'.freelist
  freed : ∀ v pte, vpn ≤ v → v < vpn + n → leafPte s.mem root v = some pte →
    PTE2PA pte ∈ s'.freelist

theorem released_zero (s : Phys) (root vpn : Nat) : Released s s root vpn 0 :=
  ⟨List.Subset.refl _, fun v pte hlo hhi => by omega⟩

theorem released_of_none (hnone : leafPte s.mem root vpn = none) :
    Released s s root vpn 1 := by
  refine ⟨List.Subset.refl _, fun v pte hlo hhi hpte => ?_⟩
  obtain rfl : v = vpn := by omega
  rw [hnone] at hpte
  cases hpte

/-- `kfree` of an owned page followed by the clearing of its entry. -/
theorem moved_unmapFree {t pte : Nat} (hsep : Sep s root keep held) (hvpn : vpn < 512 ^ 3)
    (hkeep : keep vpn = true) (ht : node s.mem root 2 (vpn / 512) = some t)
    (hpte : leafPte s.mem root vpn = some pte) {s' : Phys} (hs' : s' = { s with
      mem := (s.mem.fill (PTE2PA pte) 1 4096).storeLE (t + 8 * (vpn % 512)) 8 0
      freelist := PTE2PA pte :: s.freelist
      refreed := s.refreed || s.freelist.contains (PTE2PA pte) }) :
    Moved s' s root keep held held ∧ Unmapped s' s root keep vpn 1 := by
  have hleaf := hsep.leafHeap hvpn hkeep hpte
  have hframe := fill_frame s.mem 1 hleaf.2.1
  -- the page is filled, its entry cleared, and then it joins the free list
  obtain ⟨hfilled, hleaves⟩ := moved_write hsep hframe
    (cons_subset.2 ⟨mem_append_left _ hleaf.1, nil_subset _⟩)
  have hsep1 := hfilled.sep hsep
  have hsame : ∀ pg ∈ tablePages s.mem root,
      SamePage (s.mem.fill (PTE2PA pte) 1 4096) s.mem pg := by
    intro pg hpg
    apply hframe pg (hsep.inv.table_heap hpg).1
    rw [mem_singleton]
    rintro rfl
    exact (hsep.disjoint.2.2.2.2.2.1 _ hpg).1 hleaf.1
  have ht1 : node (s.mem.fill (PTE2PA pte) 1 4096) root 2 (vpn / 512) = some t := by
    rw [node_congr hsame (by decide) (by omega), ht]
  have hpte1 : leafPte (s.mem.fill (PTE2PA pte) 1 4096) root vpn = some pte := by
    rw [hleaves vpn hvpn, hpte]
  obtain ⟨hcleared, hunmapped⟩ := moved_unmap hsep1 hvpn hkeep ht1 hpte1
  have hsep2 := hcleared.sep hsep1
  obtain ⟨hgiven, hview⟩ := moved_give hsep2 (Frame.refl _ _) hs'
  refine ⟨hgiven.trans (hcleared.trans hfilled), ?_⟩
  intro vpn' hvpn'
  rw [hview vpn' hvpn', hunmapped vpn' hvpn']
  by_cases hin : vpn ≤ vpn' ∧ vpn' < vpn + 1
  · rw [if_pos hin, if_pos hin]
  · rw [if_neg hin, if_neg hin]
    refine view_congr (hleaves vpn' hvpn') fun pte' hpte' hkeep' => ?_
    have hin' := hsep.leafHeap hvpn' hkeep' hpte'
    apply hframe _ hin'.2.1
    rw [mem_singleton]
    intro heq
    have := hsep.leaf_inj hvpn hkeep hpte hvpn' hkeep' hpte' heq
    omega

theorem Unmapped.leaf_other (h : Unmapped s' s root keep vpn n) (hvpn' : vpn' < 512 ^ 3)
    (hout : ¬ (vpn ≤ vpn' ∧ vpn' < vpn + n)) :
    leafPte s'.mem root vpn' = leafPte s.mem root vpn' := by
  rw [leafPte_eq_view _ _ keep, h vpn' hvpn', if_neg hout, ← leafPte_eq_view]

theorem Unmapped.leaf_in (h : Unmapped s' s root keep vpn n) (hvpn' : vpn' < 512 ^ 3)
    (hin : vpn ≤ vpn' ∧ vpn' < vpn + n) :
    leafPte s'.mem root vpn' = none := by
  rw [leafPte_eq_view _ _ keep, h vpn' hvpn', if_pos hin, map_none]

theorem Released.succ (hfirst : Released s1 s root vpn 1) (hun : Unmapped s1 s root keep vpn 1)
    (hrest : Released s' s1 root (vpn + 1) n) (hend : vpn + n < 512 ^ 3) :
    Released s' s root vpn (n + 1) := by
  refine ⟨List.Subset.trans hfirst.grown hrest.grown, fun v pte hlo hhi hpte => ?_⟩
  by_cases heq : v = vpn
  · exact hrest.grown (hfirst.freed v pte hlo (by omega) hpte)
  · rw [← hun.leaf_other (by omega) (by omega)] at hpte
    exact hrest.freed v pte (by omega) (by omega) hpte

/-- Unmapping and freeing a range of owned pages, by induction on the pages
still to go. -/
theorem uvmunmapLoop_free (n : Nat) (hsep : Sep s root keep held)
    (halign : va % 4096 = 0) (hend : va + n * 4096 ≤ 2 ^ 38)
    (hkeep : ∀ vpn, va / 4096 ≤ vpn → vpn < va / 4096 + n →
      leafPte s.mem root vpn ≠ none → keep vpn = true) :
    (uvmunmapLoop root true n va).Holds s (fun _ s' => Moved s' s root keep held held ∧
        Unmapped s' s root keep (va / 4096) n ∧ Released s' s root (va / 4096) n)
      (fun _ => False) := by
  induction n generalizing s va with
  | zero =>
    rw [uvmunmapLoop, holds_pure]
    refine ⟨Moved.refl hsep.inv, fun vpn _ => ?_, released_zero s root _⟩
    rw [if_neg (by omega)]
  | succ n ih =>
    have hva : va < MAXVA := by
      rw [MAXVA]
      omega
    have hvpn := vpn_lt hva
    have hnext : (va + PGSIZE) / 4096 = va / 4096 + 1 := by
      rw [PGSIZE]
      omega
    -- whatever the first page was, the rest of the loop removes the others
    have hrest : ∀ s1, Moved s1 s root keep held held →
        Unmapped s1 s root keep (va / 4096) 1 → Released s1 s root (va / 4096) 1 →
        (uvmunmapLoop root true n (va + PGSIZE)).Holds s1
          (fun _ s' => Moved s' s root keep held held ∧
            Unmapped s' s root keep (va / 4096) (n + 1) ∧
            Released s' s root (va / 4096) (n + 1)) (fun _ => False) := by
      intro s1 hmoved hfirst hfreed
      have halign' : (va + PGSIZE) % 4096 = 0 := by
        rw [PGSIZE]
        omega
      have hend' : va + PGSIZE + n * 4096 ≤ 2 ^ 38 := by
        rw [PGSIZE]
        omega
      have h := ih (hmoved.sep hsep) halign' hend' (fun vpn hlo hhi hleaf => by
        rw [hnext] at hlo hhi
        rw [hfirst.leaf_other (by omega) (by omega)] at hleaf
        exact hkeep vpn (by omega) (by omega) hleaf)
      rw [hnext] at h
      exact h.imp fun _ s' h =>
        ⟨h.1.trans hmoved, hfirst.succ h.2.1, hfreed.succ hfirst h.2.2 (by omega)⟩
    rw [uvmunmapLoop, holds_bind, holds_walk_noalloc hva]
    rcases pteSlot_cases s.mem root va with ⟨hslot, hleaf⟩ | ⟨t, ht, hslot, hleaf⟩
    · rw [hslot]
      dsimp only
      exact hrest s (Moved.refl hsep.inv) (unmapped_of_none hleaf) (released_of_none hleaf)
    · rw [hslot]
      simp only [holds_bind, loadPte, holds_read, hasFlag_V,
        decide_eq_false_iff_not, holds_ite, if_true, storePte, holds_update]
      constructor
      · intro hinvalid
        rw [if_neg hinvalid] at hleaf
        exact hrest s (Moved.refl hsep.inv) (unmapped_of_none hleaf) (released_of_none hleaf)
      · intro hvalid
        rw [if_pos (not_not.1 hvalid)] at hleaf
        have hkept := hkeep (va / 4096) (le_refl _) (by omega) (by rw [hleaf]; simp)
        rw [holds_kfree (hsep.leafHeap hvpn hkept hleaf).2]
        obtain ⟨hmoved, hfirst⟩ := moved_unmapFree hsep hvpn hkept ht hleaf rfl
        refine hrest _ hmoved hfirst ⟨subset_cons_self _ _, fun v pte hlo hhi hpte => ?_⟩
        obtain rfl : v = va / 4096 := by omega
        rw [hleaf, some.injEq] at hpte
        rw [← hpte]
        exact mem_cons_self

theorem uvmunmap_free (hsep : Sep s root keep held) (halign : va % 4096 = 0)
    (hend : va + n * 4096 ≤ 2 ^ 38) (hkeep : ∀ vpn, va / 4096 ≤ vpn → vpn < va / 4096 + n →
      leafPte s.mem root vpn ≠ none → keep vpn = true) :
    (uvmunmap root va n true).Holds s (fun _ s' => Moved s' s root keep held held ∧
        Unmapped s' s root keep (va / 4096) n ∧ Released s' s root (va / 4096) n)
      (fun _ => False) := by
  rw [uvmunmap, if_neg (by rw [PGSIZE]; omega)]
  exact uvmunmapLoop_free n hsep halign hend hkeep

/-- The page an entry owns. -/
def leafOwned (m : ByteMem) (root : Nat) (keep : Nat → Bool) (vpn : Nat) : List Nat :=
  if keep vpn then ((leafPte m root vpn).map PTE2PA).toList else []

theorem leafOwned_of_none {m : ByteMem} (h : leafPte m root vpn = none) :
    leafOwned m root keep vpn = [] := by
  rw [leafOwned, h]
  split <;> rfl

/-- Unmapping one page without freeing it: an owned page is left in the hands of
the kernel code. -/
theorem uvmunmap_page (hsep : Sep s root keep held) (halign : va % 4096 = 0) (hva : va < MAXVA) :
    (uvmunmap root va 1 false).Holds s
      (fun _ s' => Moved s' s root keep (leafOwned s.mem root keep (va / 4096) ++ held) held ∧
        Unmapped s' s root keep (va / 4096) 1) (fun _ => False) := by
  have hvpn := vpn_lt hva
  have hnone : leafPte s.mem root (va / 4096) = none →
      Moved s s root keep (leafOwned s.mem root keep (va / 4096) ++ held) held ∧
        Unmapped s s root keep (va / 4096) 1 := by
    intro hleaf
    rw [leafOwned_of_none hleaf, nil_append]
    exact ⟨Moved.refl hsep.inv, unmapped_of_none hleaf⟩
  rw [uvmunmap, if_neg (by rw [PGSIZE]; omega), uvmunmapLoop, holds_bind, holds_walk_noalloc hva]
  rcases pteSlot_cases s.mem root va with ⟨hslot, hleaf⟩ | ⟨t, ht, hslot, hleaf⟩
  · rw [hslot]
    rw [uvmunmapLoop, holds_pure]
    exact hnone hleaf
  · rw [hslot]
    simp only [holds_bind, loadPte, holds_read, hasFlag_V,
      decide_eq_false_iff_not, holds_ite, storePte, holds_update, uvmunmapLoop,
      holds_pure, Bool.false_eq_true, if_false]
    constructor
    · intro hinvalid
      rw [if_neg hinvalid] at hleaf
      exact hnone hleaf
    · intro hvalid
      rw [if_pos (not_not.1 hvalid)] at hleaf
      cases hkeep : keep (va / 4096) with
      | true =>
        rw [leafOwned, hkeep, if_pos rfl, hleaf]
        exact moved_unmap hsep hvpn hkeep ht hleaf
      | false =>
        rw [leafOwned, hkeep, if_neg Bool.false_ne_true, nil_append]
        exact moved_unmapShared hsep hvpn hkeep ht

/-- The number of pages that `sz` bytes take. -/
def pgup (sz : Nat) : Nat := (sz + 4095) / 4096

theorem PGROUNDUP_eq (hsz : sz ≤ 2 ^ 38) : PGROUNDUP sz = pgup sz * 4096 := by
  rw [PGROUNDUP, pgup, U64]
  omega

theorem pgup_mono {a b : Nat} (h : a ≤ b) : pgup a ≤ pgup b := by
  rw [pgup, pgup]
  omega

theorem pgup_le (hsz : sz ≤ n * 4096) : pgup sz ≤ n := by
  rw [pgup]
  omega

theorem unmapped_zero_iff : Unmapped s' s root keep vpn 0 ↔ SameView s' s root keep := by
  constructor
  · intro h vpn' hvpn'
    rw [h vpn' hvpn', if_neg (by omega)]
  · intro h vpn' hvpn'
    rw [h vpn' hvpn', if_neg (by omega)]

theorem uvmdealloc_spec (hsep : Sep s root keep held) (hold : oldsz ≤ 2 ^ 38)
    (hkeep : ∀ vpn, pgup newsz ≤ vpn → vpn < pgup oldsz →
      leafPte s.mem root vpn ≠ none → keep vpn = true) :
    (uvmdealloc root oldsz newsz).Holds s
      (fun r s' => r = min newsz oldsz ∧ Moved s' s root keep held held ∧
        Unmapped s' s root keep (pgup newsz) (pgup oldsz - pgup newsz) ∧
        Released s' s root (pgup newsz) (pgup oldsz - pgup newsz) ∧ (oldsz ≤ newsz → s' = s))
      (fun _ => False) := by
  have hnothing : pgup oldsz ≤ pgup newsz → Moved s s root keep held held ∧
      Unmapped s s root keep (pgup newsz) (pgup oldsz - pgup newsz) ∧
      Released s s root (pgup newsz) (pgup oldsz - pgup newsz) ∧ (oldsz ≤ newsz → s = s) := by
    intro hle
    rw [Nat.sub_eq_zero_of_le hle, unmapped_zero_iff]
    exact ⟨Moved.refl hsep.inv, SameView.refl s, released_zero s root _, fun _ => rfl⟩
  rw [uvmdealloc]
  by_cases hge : newsz ≥ oldsz
  · rw [if_pos hge, holds_pure]
    exact ⟨by omega, hnothing (pgup_mono hge)⟩
  · have hnew : PGROUNDUP newsz = pgup newsz * 4096 := PGROUNDUP_eq (by omega)
    have hbound : pgup oldsz ≤ 2 ^ 26 := pgup_le (by omega)
    rw [if_neg hge, hnew, PGROUNDUP_eq hold]
    by_cases hlt : pgup newsz * 4096 < pgup oldsz * 4096
    · have hpages : (pgup oldsz * 4096 - pgup newsz * 4096) / PGSIZE = pgup oldsz - pgup newsz := by
        rw [PGSIZE]
        omega
      have hvpn : pgup newsz * 4096 / 4096 = pgup newsz := by omega
      have hrun := uvmunmap_free (n := pgup oldsz - pgup newsz) hsep
        (Nat.mul_mod_left (pgup newsz) 4096) (by omega) (by
          intro vpn hlo hhi
          exact hkeep vpn (by omega) (by omega))
      rw [hvpn] at hrun
      rw [if_pos hlt, holds_bind, hpages]
      exact hrun.imp fun _ s' h => by
        rw [holds_pure]
        exact ⟨by omega, h.1, h.2.1, h.2.2, fun hle => absurd hle hge⟩
    · rw [if_neg hlt, holds_pure]
      exact ⟨by omega, hnothing (by omega)⟩

/-- A page of zeros. -/
def zeroPage : Fin 4096 → UInt8 := fun _ => 0

/-- Every page of `[vpn, vpn + n)` is mapped with the given permissions and
contents, and nothing else has changed. -/
def Populated (s' s : Phys) (root : Nat) (keep : Nat → Bool) (vpn n perm : Nat)
    (bytes : Fin 4096 → UInt8) : Prop :=
  ∀ vpn', vpn' < 512 ^ 3 →
    (vpn ≤ vpn' ∧ vpn' < vpn + n → ∃ pa, view s'.mem root keep vpn' =
      some ⟨mkPte pa perm, some bytes⟩) ∧
    (¬ (vpn ≤ vpn' ∧ vpn' < vpn + n) →
      view s'.mem root keep vpn' = view s.mem root keep vpn')

theorem pageBytes_fill (m : ByteMem) (pa : Nat) (c : UInt8) :
    pageBytes (m.fill pa c 4096) pa = fun _ => c := by
  funext off
  exact ByteMem.fill_apply m (by omega) (by omega)

theorem fill_fill_frame (m : ByteMem) (c d : UInt8) (hpg : pg % 4096 = 0) :
    Frame ((m.fill pg c 4096).fill pg d 4096) m [pg] :=
  (fill_frame _ d hpg).trans (fill_frame m c hpg)

/-- A page `pa` taken from the free list is given the contents `bytes` and mapped
at `va`, or there was no memory to map it. -/
def FreshPost (s : Phys) (root : Nat) (keep : Nat → Bool) (held : List Nat) (va perm : Nat)
    (bytes : Fin 4096 → UInt8) (pa : Nat) (r : Int) (s' : Phys) : Prop :=
  leafPte s.mem root (va / 4096) = none ∧
    ((r = 0 ∧ Moved s' s root keep held held ∧
        Mapped s' s root keep (va / 4096) ⟨mkPte pa perm, some bytes⟩ ∧
        s'.freelist.length < s.freelist.length ∧
        s.freelist.length ≤ s'.freelist.length + 3 ∧
        tablePages s.mem root ⊆ tablePages s'.mem root) ∨
      (r = -1 ∧ Moved s' s root keep (pa :: held) held ∧
        SameView s' s root keep ∧ s.freelist.length < 3))

theorem mappages_fresh {m' : ByteMem} (hsep : Sep s root keep held)
    (hfree : s.freelist = pa :: rest) (hframe : Frame m' s.mem [pa]) (hva : va < MAXVA)
    (halign : va % 4096 = 0) (hperm : perm < 1024)
    (hflags : hasFlag perm (PTE_R ||| PTE_W ||| PTE_X) = true) (hkeep : keep (va / 4096) = true) :
    (mappages root va PGSIZE pa perm).Holds { s with freelist := rest, mem := m' }
      (FreshPost s root keep held va perm (pageBytes m' pa) pa)
      (fun message => message = "mappages: remap" ∧ (leafPte s.mem root (va / 4096)).isSome) := by
  obtain ⟨htaken, hview⟩ := moved_take hsep hfree hframe
  have hlen : s.freelist.length = rest.length + 1 := by
    rw [hfree]
    rfl
  have hrun := mappages_held (htaken.sep hsep) hva halign hperm hflags hkeep
  rw [hview.leaves _ (vpn_lt hva)] at hrun
  refine hrun.imp ?_
  rintro r s' ⟨hold, ⟨hr, hmoved, hmapped, hle, hcount, htables⟩ | ⟨hr, hmoved, hsame, hcount⟩⟩
  · dsimp only at hle hcount htables
    have hold_tables : tablePages m' root = tablePages s.mem root := by
      refine tablePages_congr fun pg hpg => hframe pg (hsep.inv.table_heap hpg).1 fun hin => ?_
      rw [mem_singleton.1 hin] at hpg
      exact hsep.inv.free_not_table (hfree ▸ mem_cons_self) hpg
    refine ⟨hold, Or.inl ⟨hr, hmoved.trans htaken, ?_, by omega, by omega, hold_tables ▸ htables⟩⟩
    intro vpn' hvpn'
    rw [hmapped vpn' hvpn', hview vpn' hvpn']
  · dsimp only at hcount
    exact ⟨hold, Or.inr ⟨hr, hmoved.trans htaken, hsame.trans hview, by omega⟩⟩

theorem mappages_filled {c : UInt8} (hsep : Sep s root keep held)
    (hfree : s.freelist = pa :: rest) (hva : va < MAXVA) (halign : va % 4096 = 0)
    (hperm : perm < 1024) (hflags : hasFlag perm (PTE_R ||| PTE_W ||| PTE_X) = true)
    (hkeep : keep (va / 4096) = true) :
    (mappages root va PGSIZE pa perm).Holds
      { s with freelist := rest, mem := (s.mem.fill pa 5 4096).fill pa c 4096 }
      (FreshPost s root keep held va perm (fun _ => c) pa)
      (fun message => message = "mappages: remap" ∧ (leafPte s.mem root (va / 4096)).isSome) := by
  have hpa : pa ∈ s.freelist := hfree ▸ mem_cons_self
  have hrun := mappages_fresh hsep hfree
    (fill_fill_frame s.mem 5 c (hsep.inv.free_heap hpa).1) hva halign hperm hflags hkeep
  rwa [pageBytes_fill] at hrun

theorem kfree_held (hsep : Sep s root keep (pg :: held)) :
    (kfree pg).Holds s
      (fun _ s' => Moved s' s root keep held (pg :: held) ∧ SameView s' s root keep)
      (fun _ => False) := by
  have hheap := hsep.heldHeap mem_cons_self
  rw [holds_kfree hheap]
  exact moved_give hsep (fill_frame s.mem 1 hheap.1) rfl

theorem Populated.succ {bytes : Fin 4096 → UInt8}
    (hfirst : Mapped s1 s root keep vpn ⟨mkPte pa perm, some bytes⟩)
    (hrest : Populated s' s1 root keep (vpn + 1) n perm bytes) :
    Populated s' s root keep vpn (n + 1) perm bytes := by
  intro vpn' hvpn'
  obtain ⟨hin, hout⟩ := hrest vpn' hvpn'
  have hfirst' := hfirst vpn' hvpn'
  by_cases heq : vpn' = vpn
  · rw [if_pos heq] at hfirst'
    refine ⟨fun _ => ⟨pa, ?_⟩, fun h => absurd (by omega) h⟩
    rw [hout (by omega), hfirst']
  · rw [if_neg heq] at hfirst'
    refine ⟨fun h => hin (by omega), fun h => ?_⟩
    rw [hout (by omega), hfirst']

/-- What `uvmalloc` does from the page of `va` on, `base` being where the whole
allocation began and `top` the page that it does not reach: on success the pages are there,
on failure those mapped since `base` are gone. -/
def AllocPost (s : Phys) (root : Nat) (keep : Nat → Bool) (held : List Nat)
    (base va newsz perm top n : Nat) (r : Nat) (s' : Phys) : Prop :=
  Moved s' s root keep held held ∧
    ((r = newsz ∧ Populated s' s root keep (va / 4096) n perm zeroPage ∧
        va / 4096 + n ≤ top ∧ s.freelist.length ≤ s'.freelist.length + 3 * n ∧
        tablePages s.mem root ⊆ tablePages s'.mem root) ∨
      (r = 0 ∧ Unmapped s' s root keep (base / 4096) (va / 4096 - base / 4096) ∧
        s.freelist.length < 3 * n))

theorem hasFlag_read (xperm : Nat) :
    hasFlag (PTE_R ||| PTE_U ||| xperm) (PTE_R ||| PTE_W ||| PTE_X) = true := by
  rw [hasFlag_or]
  rfl

theorem uvmallocLoop_spec {base : Nat} (newsz n : Nat) (hsep : Sep s root keep held)
    (htop : leafPte s.mem root top ≠ none ∧ top < 2 ^ 26 ∨ va / 4096 + n ≤ top ∧ top ≤ 2 ^ 26)
    (hbase : base % 4096 = 0) (hle : base ≤ va) (halign : va % 4096 = 0) (hva : va / 4096 ≤ top)
    (hperm : PTE_R ||| PTE_U ||| xperm < 1024)
    (hkeep : ∀ vpn, base / 4096 ≤ vpn → vpn < va / 4096 + n → vpn < top → keep vpn = true)
    (hfresh : ∀ vpn, va / 4096 ≤ vpn → vpn < va / 4096 + n → vpn < top →
      leafPte s.mem root vpn = none) :
    (uvmallocLoop root base newsz xperm n va).Holds s
      (AllocPost s root keep held base va newsz (PTE_R ||| PTE_U ||| xperm) top n)
      (fun _ => top < va / 4096 + n ∧ top < va / 4096 + s.freelist.length) := by
  induction n generalizing s va with
  | zero =>
    rw [uvmallocLoop, holds_pure]
    refine ⟨Moved.refl hsep.inv, Or.inl ⟨rfl, fun vpn _ => ⟨?_, fun _ => rfl⟩, hva, by omega,
      List.Subset.refl _⟩⟩
    intro h
    omega
  | succ n ih =>
    have hbasevpn : pgup base = base / 4096 := by
      rw [pgup]
      omega
    have hvavpn : pgup va = va / 4096 := by
      rw [pgup]
      omega
    have hin : va < MAXVA := by
      rw [MAXVA]
      omega
    -- giving up: the pages mapped so far are removed again
    have hgiveup : ∀ s1, Moved s1 s root keep held held → SameView s1 s root keep →
        s.freelist.length < 3 * (n + 1) → (uvmdealloc root va base >>= fun _ => pure 0).Holds s1
          (AllocPost s root keep held base va newsz (PTE_R ||| PTE_U ||| xperm) top (n + 1))
          (fun _ => top < va / 4096 + (n + 1) ∧ top < va / 4096 + s.freelist.length) := by
      intro s1 hmoved hsame hcount
      have hkept : ∀ vpn, pgup base ≤ vpn → vpn < pgup va →
          leafPte s1.mem root vpn ≠ none → keep vpn = true :=
        fun vpn hlo hhi _ => hkeep vpn (by omega) (by omega) (by omega)
      have hrun := uvmdealloc_spec (hmoved.sep hsep) (by omega) hkept
      rw [hbasevpn, hvavpn] at hrun
      rw [holds_bind]
      refine hrun.mono ?_ nofun
      rintro r s' ⟨_, hmoved', hunmapped, -⟩
      rw [holds_pure]
      refine ⟨hmoved'.trans hmoved, Or.inr ⟨rfl, ?_, hcount⟩⟩
      intro vpn hvpn
      rw [hunmapped vpn hvpn, hsame vpn hvpn]
    rw [uvmallocLoop, holds_bind, holds_kalloc]
    constructor
    · intro hnil
      exact hgiveup s (Moved.refl hsep.inv) (SameView.refl s) (by rw [hnil]; simp)
    · intro pa rest hfree
      simp only [holds_bind, memset, holds_update, PGSIZE]
      by_cases hlt : va / 4096 < top
      · have hnone : leafPte s.mem root (va / 4096) = none := hfresh _ (le_refl _) (by omega) hlt
        refine (mappages_filled hsep hfree hin halign hperm (hasFlag_read xperm)
          (hkeep _ (by omega) (by omega) hlt)).mono ?_ ?_
        · rintro r s1 ⟨_, ⟨hr, hmoved, hmapped, hless, hcount, htables⟩ |
            ⟨hr, hmoved, hsame, hcount⟩⟩
          · rw [hr]
            have hnext : (va + 4096) / 4096 = va / 4096 + 1 := by omega
            have hle' : base ≤ va + 4096 := by omega
            have hother : ∀ vpn, vpn < 512 ^ 3 → vpn ≠ va / 4096 →
                leafPte s1.mem root vpn = leafPte s.mem root vpn := by
              intro vpn hvpn hne
              rw [leafPte_eq_view _ _ keep, hmapped vpn hvpn, if_neg hne, ← leafPte_eq_view]
            have htop1 := htop
            rw [← hother top (by omega) (by omega)] at htop1
            have hrun := ih (hmoved.sep hsep) (htop1.imp_right fun h => by omega) hle' (by omega)
              (by omega) (fun vpn hlo hhi => hkeep vpn hlo (by omega)) (fun vpn hlo hhi hlt => by
                rw [hother vpn (by omega) (by omega)]
                exact hfresh vpn (by omega) (by omega) hlt)
            rw [if_neg (by decide)]
            refine hrun.mono ?_ (fun _ h => by omega)
            rintro r' s' ⟨hmoved', ⟨hr', hpop, hend, hcount', htables'⟩ | ⟨hr', hun, hcount'⟩⟩
            · rw [hnext] at hpop hend
              exact ⟨hmoved'.trans hmoved, Or.inl ⟨hr', hpop.succ hmapped, by omega, by omega,
                List.Subset.trans htables htables'⟩⟩
            · refine ⟨hmoved'.trans hmoved, Or.inr ⟨hr', ?_, by omega⟩⟩
              intro vpn hvpn
              have hview := hun vpn hvpn
              rw [hnext, hmapped vpn hvpn] at hview
              by_cases heq : vpn = va / 4096
              · rw [hview, if_pos (by omega), if_neg (by omega), heq, view, hnone, map_none]
              · rw [hview, if_neg heq]
                by_cases hrange : base / 4096 ≤ vpn ∧ vpn < base / 4096 + (va / 4096 - base / 4096)
                · rw [if_pos hrange, if_pos (by omega)]
                · rw [if_neg hrange, if_neg (by omega)]
          · rw [hr, if_pos (by decide)]
            have hfree' := kfree_held (hmoved.sep hsep)
            rw [holds_bind]
            refine hfree'.mono ?_ nofun
            rintro _ s2 ⟨hgiven, hsame'⟩
            exact hgiveup s2 (hgiven.trans hmoved) (hsame'.trans hsame) (by omega)
        · rintro message ⟨_, hmapped⟩
          rw [hnone] at hmapped
          exact absurd hmapped (by simp)
      · -- the page `top` is reached: it is mapped, so this panics
        have hvpn : va / 4096 = top := by omega
        replace htop := htop.resolve_right (by omega)
        have hpa : pa ∈ s.freelist := hfree ▸ mem_cons_self
        have hpaheap := hsep.inv.free_heap hpa
        obtain ⟨htaken, hview⟩ := moved_take hsep hfree (fill_fill_frame s.mem 5 0 hpaheap.1)
        have hlt := hsep.inv.heapPage_lt hpaheap
        refine (mappages_page htaken.inv.toPtTree hin halign (by omega) hperm).mono ?_ (fun _ _ => by rw [hfree, length_cons]; omega)
        rintro r s1 ⟨hold, _⟩
        rw [hview.leaves _ (vpn_lt hin), hvpn] at hold
        exact absurd hold htop.1

theorem pagesBelow_eq (hle : oldsz ≤ newsz) :
    pagesBelow (pgup oldsz * 4096) newsz = pgup newsz - pgup oldsz := by
  rw [pagesBelow, pgup, pgup]
  omega

/-- Growing from `oldsz` to `newsz` maps zeroed pages between them, or changes
nothing when memory runs out. -/
theorem uvmalloc_spec (hsep : Sep s root keep held)
    (htop : leafPte s.mem root top ≠ none ∧ top < 2 ^ 26 ∨ pgup newsz ≤ top ∧ top ≤ 2 ^ 26)
    (hold : oldsz ≤ top * 4096) (hperm : PTE_R ||| PTE_U ||| xperm < 1024)
    (hkeep : ∀ vpn, pgup oldsz ≤ vpn → vpn < pgup newsz → vpn < top → keep vpn = true)
    (hfresh : ∀ vpn, pgup oldsz ≤ vpn → vpn < pgup newsz → vpn < top →
      leafPte s.mem root vpn = none) :
    (uvmalloc root oldsz newsz xperm).Holds s (fun r s' => Moved s' s root keep held held ∧
        ((r = max newsz oldsz ∧ max newsz oldsz ≤ top * 4096 ∧
            Populated s' s root keep (pgup oldsz) (pgup newsz - pgup oldsz)
              (PTE_R ||| PTE_U ||| xperm) zeroPage ∧
            tablePages s.mem root ⊆ tablePages s'.mem root) ∨ (r = 0 ∧ SameView s' s root keep)))
      (fun _ => top < pgup newsz ∧ top < pgup oldsz + s.freelist.length) := by
  have hbound : pgup oldsz ≤ top := pgup_le hold
  rw [uvmalloc]
  by_cases hlt : newsz < oldsz
  · have hmono : pgup newsz ≤ pgup oldsz := pgup_mono (by omega)
    rw [if_pos hlt, holds_pure]
    refine ⟨Moved.refl hsep.inv, Or.inl ⟨by omega, by omega, ?_, List.Subset.refl _⟩⟩
    exact fun vpn _ => ⟨fun h => by omega, fun _ => rfl⟩
  · have hmono : pgup oldsz ≤ pgup newsz := pgup_mono (by omega)
    have hvpn : pgup oldsz * 4096 / 4096 = pgup oldsz := by omega
    have hsum : pgup oldsz + (pgup newsz - pgup oldsz) = pgup newsz := by omega
    rw [if_neg hlt, PGROUNDUP_eq (by omega), pagesBelow_eq (by omega)]
    have hrun := uvmallocLoop_spec newsz (pgup newsz - pgup oldsz) hsep
      (htop.imp_right fun h => by omega) (Nat.mul_mod_left (pgup oldsz) 4096) (le_refl (pgup oldsz * 4096))
      (Nat.mul_mod_left (pgup oldsz) 4096) (by omega) hperm
      (by rw [hvpn, hsum]; exact hkeep) (by rw [hvpn, hsum]; exact hfresh)
    rw [hvpn, hsum] at hrun
    refine hrun.mono ?_ (fun _ h => h)
    rintro r s' ⟨hmoved, ⟨hr, hpop, hend, -, htables⟩ | ⟨hr, hun, -⟩⟩
    · rw [hvpn] at hpop hend
      have hceil : newsz ≤ pgup newsz * 4096 := by
        rw [pgup]
        omega
      exact ⟨hmoved, Or.inl ⟨by omega, by omega, hpop, htables⟩⟩
    · rw [Nat.sub_self, unmapped_zero_iff] at hun
      exact ⟨hmoved, Or.inr ⟨hr, hun⟩⟩

/-- Whether `va` is mapped. -/
theorem holds_ismapped (hva : va < MAXVA) {post : Bool → Phys → Prop} {onPanic : String → Prop} :
    (ismapped root va).Holds s post onPanic ↔ post (leafPte s.mem root (va / 4096)).isSome s := by
  rw [ismapped, holds_bind, holds_walk_noalloc hva]
  rcases pteSlot_cases s.mem root va with ⟨hslot, hleaf⟩ | ⟨t, _, hslot, hleaf⟩
  · rw [hslot, hleaf]
    rw [holds_pure]
    rfl
  · rw [hslot]
    simp only [holds_bind, loadPte, holds_read, hasFlag_V, holds_pure]
    rw [hleaf]
    split <;> rename_i hvalid <;> simp [hvalid]

/-- The permissions of a page materialised on a fault. -/
def faultPerm : Nat := PTE_W ||| PTE_U ||| PTE_R

/-- What `vmfault` does: a zeroed page below the size is mapped where there was
none, or nothing changes. -/
def FaultPost (s : Phys) (root : Nat) (keep : Nat → Bool) (held : List Nat) (psz va : Nat)
    (r : Option Nat) (s' : Phys) : Prop :=
  Moved s' s root keep held held ∧ s.freelist.length ≤ s'.freelist.length + 3 ∧
    ((∃ pa, r = some pa ∧ pa % 4096 = 0 ∧ va < psz ∧
        leafPte s.mem root (va / 4096) = none ∧
        Mapped s' s root keep (va / 4096) ⟨mkPte pa faultPerm, some zeroPage⟩) ∨
      (r = none ∧ SameView s' s root keep ∧
        (psz ≤ va ∨ leafPte s.mem root (va / 4096) ≠ none ∨ s.freelist.length < 3)))

theorem vmfault_spec {psz : Nat} (hsep : Sep s root keep held) (hpsz : psz ≤ 2 ^ 38)
    (hkeep : va < psz → keep (va / 4096) = true) :
    (vmfault psz root root va).Holds s (FaultPost s root keep held psz va) (fun _ => False) := by
  have hdown : PGROUNDDOWN va / 4096 = va / 4096 := by
    rw [PGROUNDDOWN]
    omega
  have hsame : Moved s s root keep held held := Moved.refl hsep.inv
  rw [vmfault]
  by_cases hge : va ≥ psz
  · rw [if_pos hge, holds_pure]
    exact ⟨hsame, by omega, Or.inr ⟨rfl, SameView.refl s, Or.inl hge⟩⟩
  · have hva : PGROUNDDOWN va < MAXVA := by
      rw [PGROUNDDOWN, MAXVA]
      omega
    rw [if_neg hge, holds_bind, holds_ismapped hva, hdown]
    cases hleaf : leafPte s.mem root (va / 4096) with
    | some pte =>
      rw [isSome_some, if_pos rfl, holds_pure]
      exact ⟨hsame, by omega, Or.inr ⟨rfl, SameView.refl s, Or.inr (Or.inl (by rw [hleaf]; simp))⟩⟩
    | none =>
      rw [isSome_none, if_neg Bool.false_ne_true, holds_bind, holds_kalloc]
      constructor
      · intro hnil
        rw [holds_pure]
        exact ⟨hsame, by omega, Or.inr ⟨rfl, SameView.refl s, Or.inr (Or.inr (by rw [hnil]; simp))⟩⟩
      · intro pa rest hfree
        simp only [holds_bind, memset, holds_update]
        have hkeep' : keep (PGROUNDDOWN va / 4096) = true := by
          rw [hdown]
          exact hkeep (by omega)
        have hperm : faultPerm < 1024 := by decide
        have hrun := mappages_filled (c := 0) hsep hfree hva (PGROUNDDOWN_mod va)
          hperm (by decide) hkeep'
        refine hrun.mono ?_ ?_
        · rintro r s1 ⟨hnone, ⟨hr, hmoved, hmapped, hcount⟩ | ⟨hr, hmoved, hview, hcount⟩⟩
          · rw [hr, if_neg (by decide), holds_pure]
            rw [hdown] at hmapped
            have hpa : pa ∈ s.freelist := hfree ▸ mem_cons_self
            exact ⟨hmoved, hcount.2.1, Or.inl ⟨pa, rfl, (hsep.inv.free_heap hpa).1, by omega,
              hleaf, hmapped⟩⟩
          · rw [hr, if_pos (by decide), holds_bind]
            refine (kfree_held (hmoved.sep hsep)).mono ?_ nofun
            rintro _ s2 ⟨hgiven, hview'⟩
            rw [holds_pure]
            exact ⟨hgiven.trans hmoved, by omega,
              Or.inr ⟨rfl, hview'.trans hview, Or.inr (Or.inr hcount)⟩⟩
        · rintro message ⟨_, hmapped⟩
          rw [hdown, hleaf] at hmapped
          exact absurd hmapped (by simp)

end EAFITos
