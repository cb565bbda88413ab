/-
`uvmalloc` and `uvmcopy` do all of their work or none of it, wherever memory runs out.
-/
import EAFITos.UvmCopy
import EAFITos.PageMap

namespace EAFITos

open Option

variable {s s' : Phys} {root : Nat} {keep : Nat → Bool}

/-- The table at `root` has gained exactly the pages that `want` gives flags and contents
for, each on a page of its own that was free. -/
structure Gained (s' s : Phys) (root : Nat)
    (want : Nat → Option (Nat × (Fin 4096 → UInt8))) : Prop where
  added : ∀ vpn flags bytes, vpn < MAXVA / PGSIZE → want vpn = some (flags, bytes) →
    ∃ pa ∈ s.freelist, entries s' root vpn = some (pa, flags) ∧ pageBytes s'.mem pa = bytes
  kept : ∀ vpn, vpn < MAXVA / PGSIZE → want vpn = none →
    entries s' root vpn = entries s root vpn
  distinct : ∀ vpn vpn' pa flags flags', vpn < MAXVA / PGSIZE → vpn' < MAXVA / PGSIZE →
    want vpn ≠ none → want vpn' ≠ none → entries s' root vpn = some (pa, flags) →
    entries s' root vpn' = some (pa, flags') → vpn' = vpn

/-- Every lookup is as it was, and every page that is no longer free is a page of the tables. -/
structure Undone (s' s : Phys) (root : Nat) : Prop where
  lookups : ∀ vpn, vpn < MAXVA / PGSIZE → entries s' root vpn = entries s root vpn
  pages : (s'.freelist ++ tablePages s'.mem root).Perm (s.freelist ++ tablePages s.mem root)

/-- What `uvmalloc` is to add. -/
def allocWant (oldsz newsz perm : Nat) (vpn : Nat) : Option (Nat × (Fin 4096 → UInt8)) :=
  if pgup oldsz ≤ vpn ∧ vpn < pgup newsz then some (perm ||| PTE_V, zeroPage) else none

/-- What `uvmcopy` is to add. -/
def copyWant (s : Phys) (old sz : Nat) (vpn : Nat) : Option (Nat × (Fin 4096 → UInt8)) :=
  if vpn < pgup sz then
    (leafPte s.mem old vpn).map fun pte => (PTE_FLAGS pte, pageBytes s.mem (PTE2PA pte))
  else none

theorem vpn_lt_of_max {vpn : Nat} (h : vpn < MAXVA / PGSIZE) : vpn < 512 ^ 3 := by
  have hpages : MAXVA / PGSIZE = 2 ^ 26 := by decide
  omega

theorem leafPte_odd {m : ByteMem} {vpn pte : Nat} (h : leafPte m root vpn = some pte) :
    pte % 2 = 1 := by
  simp only [leafPte, bind_eq_some_iff, ite_none_right_eq_some] at h
  obtain ⟨t, -, hodd, hpte⟩ := h
  rwa [some.inj hpte] at hodd

theorem or_V_of_odd {flags : Nat} (h : flags % 2 = 1) : flags ||| PTE_V = flags := by
  have hbits := Nat.two_pow_add_eq_or_of_lt (i := 1) (b := 1) (by decide) (flags / 2)
  have hsplit : 2 ^ 1 * (flags / 2) + 1 = flags := by omega
  rw [hsplit] at hbits
  rw [hbits, PTE_V, Nat.or_assoc, Nat.or_self]

theorem SameLeaves.undone {held : List Nat} (hleaves : SameLeaves s' s root)
    (hmoved : Moved s' s root keep held held) : Undone s' s root where
  lookups := fun vpn hvpn => entries_congr (hleaves vpn (vpn_lt_of_max hvpn))
  pages := hmoved.free_tables hleaves

section Void

/- Nothing is mapped at the pages of `keep` before the call. -/
variable (hvoid : ∀ vpn, vpn < 512 ^ 3 → keep vpn = true → leafPte s.mem root vpn = none)

include hvoid

theorem ledger_void : ledger s root keep [] = s.freelist ++ tablePages s.mem root := by
  have howned : ownedLeaves s.mem root keep = [] := by
    apply List.eq_nil_iff_forall_not_mem.mpr
    intro pg hpg
    obtain ⟨vpn, pte, hvpn, hkeep, hpte, -⟩ := mem_ownedLeaves_iff.1 hpg
    simp [hvoid vpn hvpn hkeep] at hpte
  simp [ledger, howned]

theorem PtInv.sep_void (hinv : PtInv s root) : Sep s root keep [] := by
  refine ⟨hinv, ?_⟩
  rw [ledger_void hvoid]
  exact ⟨hinv.nodup, hinv.heap⟩

section

variable (hmoved : Moved s' s root keep [] []) (hsep : Sep s root keep [])
  (htables : tablePages s.mem root ⊆ tablePages s'.mem root)
include hmoved hsep htables

/-- A page mapped since is one that was free. -/
theorem Moved.taken_from_free {vpn pte : Nat} (hvpn : vpn < 512 ^ 3) (hkeep : keep vpn = true)
    (hpte : leafPte s'.mem root vpn = some pte) : PTE2PA pte ∈ s.freelist := by
  have hown := ((hmoved.sep hsep).leafHeap hvpn hkeep hpte).1
  have hmem : PTE2PA pte ∈ ledger s root keep [] := by
    apply hmoved.shift.perm.mem_iff.1
    simp [ledger, hown]
  rw [ledger_void hvoid, List.mem_append] at hmem
  apply hmem.resolve_right
  intro htable
  exact ((hmoved.sep hsep).disjoint.2.2.2.2.2.1 _ (htables htable)).1 hown

theorem Gained.of_view {want : Nat → Option (Nat × (Fin 4096 → UInt8))}
    (hkeep : ∀ vpn, want vpn ≠ none → keep vpn = true)
    (hin : ∀ vpn flags bytes, vpn < 512 ^ 3 → want vpn = some (flags, bytes) →
      ∃ pte, view s'.mem root keep vpn = some ⟨pte, some bytes⟩ ∧ PTE_FLAGS pte = flags)
    (hout : ∀ vpn, vpn < 512 ^ 3 → want vpn = none →
      view s'.mem root keep vpn = view s.mem root keep vpn) :
    Gained s' s root want where
  added := by
    intro vpn flags bytes hvpn hwant
    have hvpn := vpn_lt_of_max hvpn
    have hk := hkeep vpn (by simp [hwant])
    obtain ⟨pte, hview, hflags⟩ := hin vpn flags bytes hvpn hwant
    have hleaf : leafPte s'.mem root vpn = some pte ∧ pageBytes s'.mem (PTE2PA pte) = bytes := by
      cases hpte : leafPte s'.mem root vpn <;> simp [view, hpte, hk] at hview
      exact ⟨by rw [hview.1], by rw [← hview.1, hview.2]⟩
    refine ⟨PTE2PA pte, hmoved.taken_from_free hvoid hsep htables hvpn hk hleaf.1, ?_, hleaf.2⟩
    simp [entries, hleaf.1, hflags]
  kept := by
    intro vpn hvpn hwant
    apply entries_congr
    rw [leafPte_eq_view _ _ keep, hout vpn (vpn_lt_of_max hvpn) hwant, ← leafPte_eq_view]
  distinct := by
    intro vpn vpn' pa flags flags' hvpn hvpn' hwant hwant' hentry hentry'
    simp only [entries, map_eq_some_iff, Prod.mk.injEq] at hentry hentry'
    obtain ⟨pte, hpte, hpa, -⟩ := hentry
    obtain ⟨pte', hpte', hpa', -⟩ := hentry'
    exact (hmoved.sep hsep).leaf_inj (vpn_lt_of_max hvpn) (hkeep vpn hwant) hpte
      (vpn_lt_of_max hvpn') (hkeep vpn' hwant') hpte' (hpa'.trans hpa.symm)

end

end Void

theorem uvmalloc_atomic {oldsz newsz xperm : Nat} (hinv : PtInv s root) (hold : oldsz ≤ MAXVA)
    (hnew : newsz ≤ MAXVA) (hperm : PTE_R ||| PTE_U ||| xperm < 1024)
    (hfresh : ∀ vpn, pgup oldsz ≤ vpn → vpn < pgup newsz → entries s root vpn = none) :
    (uvmalloc root oldsz newsz xperm).Holds s (fun r s' => (r = max newsz oldsz ∧
          Gained s' s root (allocWant oldsz newsz (PTE_R ||| PTE_U ||| xperm))) ∨
        (r = 0 ∧ Undone s' s root)) (fun _ => False) := by
  have hleaf : ∀ vpn, pgup oldsz ≤ vpn → vpn < pgup newsz → leafPte s.mem root vpn = none :=
    fun vpn hlo hhi => by simpa [entries] using hfresh vpn hlo hhi
  have hpages : pgup newsz ≤ 2 ^ 26 := pgup_le (hnew.trans (by decide))
  generalize hk : (fun vpn => decide (pgup oldsz ≤ vpn ∧ vpn < pgup newsz)) = keep
  have hvoid : ∀ vpn, vpn < 512 ^ 3 → keep vpn = true → leafPte s.mem root vpn = none := by
    intro vpn _ hkeep
    simp only [← hk, decide_eq_true_eq] at hkeep
    exact hleaf vpn hkeep.1 hkeep.2
  have hsep := hinv.sep_void hvoid
  refine (uvmalloc_spec hsep (Or.inr ⟨hpages, le_refl _⟩) (hold.trans (by decide)) hperm
    (fun vpn hlo hhi _ => by simp [← hk, hlo, hhi]) (fun vpn hlo hhi _ => hleaf vpn hlo hhi)).mono
    ?_ (fun _ h => by omega)
  rintro r s' ⟨hmoved, ⟨hr, -, hpop, htables⟩ | ⟨hr, hsame⟩⟩
  · refine Or.inl ⟨hr, Gained.of_view hvoid hmoved hsep htables ?_ ?_ ?_⟩
    · intro vpn hwant
      by_contra hkeep
      simp [← hk] at hkeep
      simp [allocWant] at hwant
      omega
    · intro vpn flags bytes hvpn hwant
      simp only [allocWant, ite_none_right_eq_some, some.injEq, Prod.mk.injEq] at hwant
      obtain ⟨hrange, rfl, rfl⟩ := hwant
      obtain ⟨pa, hview⟩ := (hpop vpn hvpn).1 (by omega)
      exact ⟨_, hview, PTE_FLAGS_mkPte hperm⟩
    · intro vpn hvpn hwant
      apply (hpop vpn hvpn).2
      intro hrange
      simp [allocWant, show pgup oldsz ≤ vpn ∧ vpn < pgup newsz by omega] at hwant
  · exact Or.inr ⟨hr, hsame.leaves.undone hmoved⟩

theorem uvmcopy_atomic {old new sz : Nat} (hinv : PtInv s new) (hsz : sz ≤ MAXVA)
    (hapart : Apart s old new (fun _ => false) [] (512 ^ 3))
    (hfresh : ∀ vpn, vpn < pgup sz → entries s new vpn = none) :
    (uvmcopy old new sz).Holds s (fun r s' => SameView s' s old (fun _ => true) ∧
        ((r = 0 ∧ Gained s' s new (copyWant s old sz)) ∨ (r = -1 ∧ Undone s' s new)))
      (fun _ => False) := by
  have hleaf : ∀ vpn, vpn < pgup sz → leafPte s.mem new vpn = none :=
    fun vpn hlt => by simpa [entries] using hfresh vpn hlt
  have hpages : pgup sz ≤ 2 ^ 26 := pgup_le (hsz.trans (by decide))
  generalize hk : (fun vpn => decide (vpn < pgup sz)) = keep
  have hvoid : ∀ vpn, vpn < 512 ^ 3 → keep vpn = true → leafPte s.mem new vpn = none := by
    intro vpn _ hkeep
    simp only [← hk, decide_eq_true_eq] at hkeep
    exact hleaf vpn hkeep
  have hsep := hinv.sep_void hvoid
  have hledger : ledger s new (fun _ => false) [] = ledger s new keep [] := by
    rw [ledger_void hvoid, ledger_void (by simp)]
  have hsource : ∀ top, top ≤ 512 ^ 3 → Apart s old new keep [] top := by
    intro top htop
    refine ⟨fun pg hpg => hledger ▸ hapart.tables pg hpg, fun vpn pte hvpn hpte => ?_⟩
    exact hledger ▸ hapart.leaves vpn pte (by omega) hpte
  refine (uvmcopy_spec hsep (hsource _ (by omega)) hpages (fun vpn hlt => by simp [← hk, hlt])
    hleaf).imp ?_
  rintro r s' ⟨hmoved, hcase⟩
  have hsame := hsource (512 ^ 3) (le_refl _)
  refine ⟨fun vpn hvpn => ?_, ?_⟩
  · apply view_congr (leafPte_congr (hsame.sameTables hmoved) hvpn)
    exact fun pte hpte _ => hsame.samePage hmoved hvpn hpte
  rcases hcase with ⟨hr, hcopied, -, htables⟩ | ⟨hr, hun, -⟩
  · refine Or.inl ⟨hr, Gained.of_view hvoid hmoved hsep htables ?_ ?_ ?_⟩
    · intro vpn hwant
      by_contra hkeep
      simp [← hk] at hkeep
      simp [copyWant] at hwant
      omega
    · intro vpn flags bytes hvpn hwant
      simp only [copyWant, ite_none_right_eq_some, map_eq_some_iff, Prod.mk.injEq] at hwant
      obtain ⟨hlt, pte, hpte, rfl, rfl⟩ := hwant
      obtain ⟨pa, hview⟩ := (hcopied vpn hvpn).1 pte (by omega) hpte
      refine ⟨_, hview, (PTE_FLAGS_mkPte (Nat.mod_lt _ (by decide))).trans ?_⟩
      apply or_V_of_odd
      have hodd := leafPte_odd hpte
      omega
    · intro vpn hvpn hwant
      apply (hcopied vpn hvpn).2
      by_cases hlt : vpn < pgup sz
      · exact Or.inr (by simpa [copyWant, hlt] using hwant)
      · exact Or.inl (by omega)
  · refine Or.inr ⟨hr, SameLeaves.undone (fun vpn hvpn => ?_) hmoved⟩
    have hview := hun vpn hvpn
    rw [leafPte_eq_view _ _ keep, hview]
    split
    · rw [hleaf vpn (by omega), map_none]
    · rw [← leafPte_eq_view]

/-- Both calls are all or nothing, for every page table and however many pages are free: they
return, with the pages asked for or with nothing changed.  The source of a copy, whose pages
are neither free nor those of the other table, is as it was. -/
theorem uvm_all_or_nothing (hinv : PtInv s root) :
    (∀ oldsz newsz xperm, oldsz ≤ MAXVA → newsz ≤ MAXVA → PTE_R ||| PTE_U ||| xperm < 1024 →
      (∀ vpn, pgup oldsz ≤ vpn → vpn < pgup newsz → entries s root vpn = none) →
      ∃ r s', uvmalloc root oldsz newsz xperm s = .ok r s' ∧
        ((r = max newsz oldsz ∧
            Gained s' s root (allocWant oldsz newsz (PTE_R ||| PTE_U ||| xperm))) ∨
          (r = 0 ∧ Undone s' s root))) ∧
    ∀ old sz, sz ≤ MAXVA → Apart s old root (fun _ => false) [] (512 ^ 3) →
      (∀ vpn, vpn < pgup sz → entries s root vpn = none) →
      ∃ r s', uvmcopy old root sz s = .ok r s' ∧ SameView s' s old (fun _ => true) ∧
        ((r = 0 ∧ Gained s' s root (copyWant s old sz)) ∨ (r = -1 ∧ Undone s' s root)) :=
  ⟨fun _ _ _ hold hnew hperm hfresh =>
      (uvmalloc_atomic hinv hold hnew hperm hfresh).exists_ok,
    fun _ _ hsz hapart hfresh => (uvmcopy_atomic hinv hsz hapart hfresh).exists_ok⟩

/-- A new table, and the table of a page outside the heap. -/
theorem uvm_all_or_nothing_new : ∃ root s, uvmcreate fourPages = .ok (some root) s ∧
    (∃ r s', uvmalloc root 1 8192 PTE_W s = .ok r s' ∧
      ((r = 8192 ∧ Gained s' s root (allocWant 1 8192 (PTE_R ||| PTE_U ||| PTE_W))) ∨
        (r = 0 ∧ Undone s' s root))) ∧
    ∃ r s', uvmcopy 0x80008000 root 8192 s = .ok r s' ∧
      SameView s' s 0x80008000 (fun _ => true) ∧
      ((r = 0 ∧ Gained s' s root (copyWant s 0x80008000 8192)) ∨
        (r = -1 ∧ Undone s' s root)) := by
  have hgood : Good fourPages (fourPages.freelist ++ []) := fourPages_good
  obtain ⟨r, s, hcreate, ⟨-, -, hnil⟩ | ⟨root, rfl, hsep, hshift, hempty, -⟩⟩ :=
    (uvmcreate_spec (fun _ => false) hgood (by decide)).exists_ok
  · cases hnil
  have hnone : ∀ vpn, vpn < 512 ^ 3 → entries s root vpn = none := by
    intro vpn hvpn
    simp [entries, hempty vpn hvpn]
  have hout : 0x80008000 ∉ ledger s root (fun _ => false) [] := by
    intro hin
    have hlo := (hsep.good.heap _ hin).2.1
    rw [hshift.bounds.kend] at hlo
    exact absurd hlo (by decide)
  have hzero : ∀ i, i < 512 → pteAt s.mem 0x80008000 i = 0 := by
    intro i hi
    rw [pteAt_congr (hshift.frame _ (by decide) (by decide)) hi]
    simp [pteAt, fourPages, ByteMem.loadLE]
  obtain ⟨htables, hleaves, -⟩ := emptyTable hzero
  have hapart : Apart s 0x80008000 root (fun _ => false) [] (512 ^ 3) := by
    refine ⟨fun pg hpg => ?_, fun vpn pte hvpn hpte => ?_⟩
    · rw [htables, List.mem_singleton] at hpg
      exact hpg ▸ ⟨by decide, hout⟩
    · simp [hleaves vpn hvpn] at hpte
  have hpages : pgup 8192 = 2 := by decide
  have hall := uvm_all_or_nothing hsep.inv
  exact ⟨root, s, hcreate,
    hall.1 1 8192 PTE_W (by decide) (by decide) (by decide) fun vpn _ hlt => hnone vpn (by omega),
    hall.2 0x80008000 8192 (by decide) hapart fun vpn hlt => hnone vpn (by omega)⟩

/-- A smaller size is answered by the old one, and past `MAXVA` the walk panics. -/
theorem uvmalloc_outside : uvmalloc 0x80100000 4096 0 PTE_W fourPages = .ok 4096 fourPages ∧
    ∃ root s message, uvmcreate fourPages = .ok (some root) s ∧
      uvmalloc root MAXVA (MAXVA + PGSIZE) PTE_W s = .panic message :=
  ⟨rfl, _, _, _, rfl, rfl⟩

end EAFITos
