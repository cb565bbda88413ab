/-
`uvmcopy`: the child's page table receives a copy of every page the parent has
materialised.
-/
import EAFITos.Uvm

namespace EAFITos

open Prog Option

variable {s s' : Phys} {old new va top : Nat} {keep : Nat → Bool} {held : List Nat}

/-- The pages of `[vpn, vpn + n)` that `old` maps in `s` are mapped by `new` in
`s'`, with the same flags and contents. -/
def Copied (s' s : Phys) (old new : Nat) (keep : Nat → Bool) (vpn n : Nat) : Prop :=
  ∀ vpn', vpn' < 512 ^ 3 →
    (∀ pte, vpn ≤ vpn' ∧ vpn' < vpn + n → leafPte s.mem old vpn' = some pte →
      ∃ pa, view s'.mem new keep vpn' =
        some ⟨mkPte pa (PTE_FLAGS pte), some (pageBytes s.mem (PTE2PA pte))⟩) ∧
    (¬ (vpn ≤ vpn' ∧ vpn' < vpn + n) ∨ leafPte s.mem old vpn' = none →
      view s'.mem new keep vpn' = view s.mem new keep vpn')

/-- The source of a copy of the pages below `top` lies outside the pages the copy can
change. -/
structure Apart (s : Phys) (old new : Nat) (keep : Nat → Bool) (held : List Nat)
    (top : Nat) : Prop where
  tables : ∀ pg ∈ tablePages s.mem old, pg % 4096 = 0 ∧ pg ∉ ledger s new keep held
  leaves : ∀ vpn pte, vpn < top → leafPte s.mem old vpn = some pte →
    PTE2PA pte ∉ ledger s new keep held ∧
      hasFlag pte (PTE_R ||| PTE_W ||| PTE_X) = true

section

variable (h : Apart s old new keep held top)
include h

theorem Apart.sameTables {held' : List Nat} (hmoved : Moved s' s new keep held' held) :
    ∀ pg ∈ tablePages s.mem old, SamePage s'.mem s.mem pg :=
  fun pg hpg => hmoved.shift.frame pg (h.tables pg hpg).1 (h.tables pg hpg).2

theorem Apart.samePage {held' : List Nat} (hmoved : Moved s' s new keep held' held) {vpn pte : Nat}
    (hvpn : vpn < top) (hpte : leafPte s.mem old vpn = some pte) :
    SamePage s'.mem s.mem (PTE2PA pte) :=
  hmoved.shift.frame _ (PTE2PA_mod pte) (h.leaves vpn pte hvpn hpte).1

theorem Apart.moved (htop : top ≤ 512 ^ 3) (hmoved : Moved s' s new keep held held) :
    Apart s' old new keep held top := by
  have htables := h.sameTables hmoved
  refine ⟨?_, ?_⟩
  · intro pg hpg
    rw [tablePages_congr htables] at hpg
    rw [hmoved.shift.perm.mem_iff]
    exact h.tables pg hpg
  · intro vpn pte hvpn hpte
    have hlt : vpn < 512 ^ 3 := by omega
    rw [leafPte_congr htables hlt] at hpte
    rw [hmoved.shift.perm.mem_iff]
    exact h.leaves vpn pte hvpn hpte

end

theorem Copied.skip {vpn n : Nat} (hnone : leafPte s.mem old vpn = none)
    (hrest : Copied s' s old new keep (vpn + 1) n) : Copied s' s old new keep vpn (n + 1) := by
  intro vpn' hvpn'
  obtain ⟨hin, hout⟩ := hrest vpn' hvpn'
  have hne : ∀ pte, leafPte s.mem old vpn' = some pte → vpn' ≠ vpn := by
    rintro pte hpte rfl
    rw [hnone] at hpte
    exact absurd hpte (by simp)
  refine ⟨fun pte hrange hpte => ?_, fun h => hout ?_⟩
  · have := hne pte hpte
    exact hin pte (by omega) hpte
  · rcases h with h | h
    · exact Or.inl (by omega)
    · exact Or.inr h

theorem Copied.cons {s1 : Phys} {vpn n pa pte : Nat}
    (hvpn : vpn + (n + 1) ≤ top) (hapart : Apart s old new keep held top)
    (hmoved : Moved s1 s new keep held held) (hpte : leafPte s.mem old vpn = some pte)
    (hfirst : Mapped s1 s new keep vpn
      ⟨mkPte pa (PTE_FLAGS pte), some (pageBytes s.mem (PTE2PA pte))⟩)
    (hrest : Copied s' s1 old new keep (vpn + 1) n) :
    Copied s' s old new keep vpn (n + 1) := by
  intro vpn' hvpn'
  obtain ⟨hin, hout⟩ := hrest vpn' hvpn'
  have hleaf : leafPte s1.mem old vpn' = leafPte s.mem old vpn' :=
    leafPte_congr (hapart.sameTables hmoved) hvpn'
  have hfirst' := hfirst vpn' hvpn'
  rw [hleaf] at hin hout
  by_cases heq : vpn' = vpn
  · rw [if_pos heq] at hfirst'
    refine ⟨fun pte' _ hpte' => ⟨pa, ?_⟩, fun h => ?_⟩
    · rw [heq, hpte] at hpte'
      rw [hout (Or.inl (by omega)), hfirst', some.inj hpte']
    · rcases h with h | h
      · omega
      · rw [heq, hpte] at h
        exact absurd h (by simp)
  · rw [if_neg heq] at hfirst'
    refine ⟨fun pte' hrange hpte' => ?_, fun h => ?_⟩
    · obtain ⟨pa', hview⟩ := hin pte' (by omega) hpte'
      rw [pageBytes_congr (hapart.samePage hmoved (by omega) hpte')] at hview
      exact ⟨pa', hview⟩
    · rw [← hfirst']
      rcases h with h | h
      · exact hout (Or.inl (by omega))
      · exact hout (Or.inr h)

/-- What the copying loop does from page `vpn` on. -/
def CopyPost (s : Phys) (old new : Nat) (keep : Nat → Bool) (held : List Nat)
    (vpn n : Nat) (r : Int) (s' : Phys) : Prop :=
  Moved s' s new keep held held ∧
    ((r = 0 ∧ Copied s' s old new keep vpn n ∧
        s.freelist.length ≤ s'.freelist.length + 3 * n ∧
        tablePages s.mem new ⊆ tablePages s'.mem new) ∨
      (r = -1 ∧ Unmapped s' s new keep 0 (vpn + n) ∧ s.freelist.length < 3 * n))

theorem pageBytes_copy (m : ByteMem) (dst src : Nat) :
    pageBytes (m.copy dst src 4096) dst = pageBytes m src := by
  funext off
  have hoff := off.isLt
  have hback : dst + off.val - dst = off.val := by omega
  rw [pageBytes, pageBytes, ByteMem.copy_apply m (by omega) (by omega), hback]

theorem copy_frame (m : ByteMem) {dst src : Nat} (hdst : dst % 4096 = 0) :
    Frame (m.copy dst src 4096) m [dst] := by
  intro other hother hout
  have hne : other ≠ dst := by simpa using hout
  exact ByteMem.copy_agreeOn m (pages_apart hother hdst hne)

theorem uvmcopyLoop_spec (n : Nat) (hsep : Sep s new keep held)
    (hapart : Apart s old new keep held top) (halign : va % 4096 = 0)
    (htop : top ≤ 2 ^ 26) (hend : va / 4096 + n ≤ top)
    (hkeep : ∀ vpn, vpn < va / 4096 + n → keep vpn = true)
    (hfresh : ∀ vpn, va / 4096 ≤ vpn → vpn < va / 4096 + n → leafPte s.mem new vpn = none) :
    (uvmcopyLoop old new n va).Holds s (CopyPost s old new keep held (va / 4096) n)
      (fun _ => False) := by
  induction n generalizing s va with
  | zero =>
    rw [uvmcopyLoop, holds_pure]
    exact ⟨Moved.refl hsep.inv, Or.inl ⟨rfl,
      fun vpn _ => ⟨fun _ h _ => by omega, fun _ => rfl⟩, by omega, List.Subset.refl _⟩⟩
  | succ n ih =>
    have hva : va < MAXVA := by
      rw [MAXVA]
      omega
    have hvpn := vpn_lt hva
    have hnext : (va + PGSIZE) / 4096 = va / 4096 + 1 := by
      rw [PGSIZE]
      omega
    have halign' : (va + PGSIZE) % 4096 = 0 := by
      rw [PGSIZE]
      omega
    have hnone := hfresh (va / 4096) (le_refl _) (by omega)
    have hskip : leafPte s.mem old (va / 4096) = none →
        (uvmcopyLoop old new n (va + PGSIZE)).Holds s
          (CopyPost s old new keep held (va / 4096) (n + 1)) (fun _ => False) := by
      intro hleaf
      have hrun := ih hsep hapart halign' (by rw [hnext]; omega)
        (fun vpn hlt => hkeep vpn (by rw [hnext] at hlt; omega))
        (fun vpn hlo hhi => hfresh vpn (by rw [hnext] at hlo; omega) (by rw [hnext] at hhi; omega))
      rw [hnext] at hrun
      refine hrun.imp ?_
      rintro r s' ⟨hmoved, ⟨hr, hcopied, hcount, htables⟩ | ⟨hr, hun, hcount⟩⟩
      · exact ⟨hmoved, Or.inl ⟨hr, hcopied.skip hleaf, by omega, htables⟩⟩
      · rw [show va / 4096 + 1 + n = va / 4096 + (n + 1) by omega] at hun
        exact ⟨hmoved, Or.inr ⟨hr, hun, by omega⟩⟩
    -- out of memory: every page of the child below this one is unmapped
    have hgiveup : ∀ s1, Moved s1 s new keep held held → SameView s1 s new keep →
        s.freelist.length < 3 → (uvmunmap new 0 (va / PGSIZE) true).Holds s1
          (fun _ s' => (pure (-1) : Prog Phys Int).Holds s'
            (CopyPost s old new keep held (va / 4096) (n + 1)) (fun _ => False))
          (fun _ => False) := by
      intro s1 hmoved hsame hcount
      have hrun := uvmunmap_free (n := va / 4096) (hmoved.sep hsep) (Nat.zero_mod 4096)
        (by omega) (fun vpn _ hhi _ => hkeep vpn (by omega))
      refine hrun.imp ?_
      rintro _ s' ⟨hmoved', hun, -⟩
      rw [holds_pure]
      refine ⟨hmoved'.trans hmoved, Or.inr ⟨rfl, ?_, by omega⟩⟩
      intro vpn hvpn'
      rw [hun vpn hvpn', hsame vpn hvpn']
      by_cases hin : vpn < va / 4096
      · rw [if_pos (by omega), if_pos (by omega)]
      · rw [if_neg (by omega)]
        by_cases hin' : vpn < va / 4096 + (n + 1)
        · rw [if_pos (by omega), view, hfresh vpn (by omega) hin', map_none]
        · rw [if_neg (by omega)]
    rw [uvmcopyLoop, holds_bind, holds_walk_noalloc hva]
    rcases pteSlot_cases s.mem old va with ⟨hslot, hleaf⟩ | ⟨t, _, hslot, hleaf⟩
    · rw [hslot]
      exact hskip hleaf
    · rw [hslot]
      simp only [holds_bind, loadPte, holds_read, hasFlag_V,
        decide_eq_false_iff_not, holds_ite, memmove, holds_update, holds_kalloc]
      generalize s.mem.loadLE (t + 8 * (va / 4096 % 512)) 8 = pte at hleaf ⊢
      refine ⟨fun hinvalid => ?_, fun hvalid => ⟨fun hnil => ?_, fun pa rest hfree => ?_⟩⟩
      · rw [if_neg hinvalid] at hleaf
        exact hskip hleaf
      · exact hgiveup s (Moved.refl hsep.inv) (SameView.refl s) (by rw [hnil]; simp)
      · rw [if_pos (not_not.1 hvalid)] at hleaf
        have hsrc := hapart.leaves _ _ (by omega) hleaf
        have hpa : pa ∈ s.freelist := hfree ▸ List.mem_cons_self
        have hpaheap := hsep.inv.free_heap hpa
        have hfill := fill_frame s.mem 5 hpaheap.1
        have hne : PTE2PA pte ∉ [pa] := by
          rw [List.mem_singleton]
          intro heq
          apply hsrc.1
          rw [heq, ledger]
          exact List.mem_append_left _ hpa
        have hframe : Frame ((s.mem.fill pa 5 4096).copy pa (PTE2PA pte) 4096) s.mem [pa] :=
          (copy_frame _ hpaheap.1).trans hfill
        have hbytes : pageBytes ((s.mem.fill pa 5 4096).copy pa (PTE2PA pte) 4096) pa =
            pageBytes s.mem (PTE2PA pte) := by
          rw [pageBytes_copy, pageBytes_congr (hfill _ (PTE2PA_mod pte) hne)]
        have hflags : hasFlag (PTE_FLAGS pte) (PTE_R ||| PTE_W ||| PTE_X) = true := by
          rw [hasFlag_flags _ _ (by decide)]
          exact hsrc.2
        have hperm : PTE_FLAGS pte < 1024 := Nat.mod_lt _ (by decide)
        have hrun := mappages_fresh hsep hfree hframe hva halign hperm hflags (hkeep _ (by omega))
        rw [hbytes] at hrun
        refine hrun.mono ?_ ?_
        · rintro r s1 ⟨_, ⟨hr, hmoved, hmapped, hless, hcount, htables⟩ |
            ⟨hr, hmoved, hsame, hcount⟩⟩
          · refine ⟨fun h => absurd hr h, fun _ => ?_⟩
            have hsame1 : ∀ vpn, va / 4096 + 1 ≤ vpn → vpn < va / 4096 + (n + 1) →
                leafPte s1.mem new vpn = none := by
              intro vpn hlo hhi
              rw [leafPte_eq_view _ _ keep, hmapped vpn (by omega), if_neg (by omega),
                ← leafPte_eq_view]
              exact hfresh vpn (by omega) hhi
            have hrun' := ih (hmoved.sep hsep) (hapart.moved (by omega) hmoved) halign'
              (by rw [hnext]; omega) (fun vpn hlt => hkeep vpn (by rw [hnext] at hlt; omega))
              (fun vpn hlo hhi => hsame1 vpn (by rw [hnext] at hlo; omega)
                (by rw [hnext] at hhi; omega))
            rw [hnext] at hrun'
            refine hrun'.imp ?_
            rintro r' s' ⟨hmoved', ⟨hr', hcopied, hcount', htables'⟩ | ⟨hr', hun, hcount'⟩⟩
            · exact ⟨hmoved'.trans hmoved, Or.inl ⟨hr',
                hcopied.cons (by omega) hapart hmoved hleaf hmapped, by omega,
                List.Subset.trans htables htables'⟩⟩
            · refine ⟨hmoved'.trans hmoved, Or.inr ⟨hr', ?_, by omega⟩⟩
              intro vpn hvpn'
              rw [hun vpn hvpn', hmapped vpn hvpn']
              by_cases hin : vpn < va / 4096 + (n + 1)
              · rw [if_pos (by omega), if_pos (by omega)]
              · rw [if_neg (by omega), if_neg (by omega), if_neg (by omega)]
          · refine ⟨fun _ => ?_, fun h => absurd (by rw [hr]; decide) h⟩
            refine (kfree_held (hmoved.sep hsep)).mono ?_ (by rintro _ ⟨⟩)
            rintro _ s2 ⟨hgiven, hsame'⟩
            exact hgiveup s2 (hgiven.trans hmoved) (hsame'.trans hsame) hcount
        · rintro message ⟨_, hmapped⟩
          rw [hnone] at hmapped
          exact absurd hmapped (by simp)

/-- Copying the memory below `sz` into a page table that maps nothing there. -/
theorem uvmcopy_spec {sz : Nat} (hsep : Sep s new keep held)
    (hapart : Apart s old new keep held (pgup sz)) (hsz : pgup sz ≤ 2 ^ 26)
    (hkeep : ∀ vpn, vpn < pgup sz → keep vpn = true)
    (hfresh : ∀ vpn, vpn < pgup sz → leafPte s.mem new vpn = none) :
    (uvmcopy old new sz).Holds s (CopyPost s old new keep held 0 (pgup sz)) (fun _ => False) := by
  have hpages : pagesBelow 0 sz = pgup sz := by
    rw [pagesBelow, pgup, Nat.sub_zero]
  rw [uvmcopy, hpages]
  exact uvmcopyLoop_spec (pgup sz) hsep hapart (Nat.zero_mod 4096) hsz (by omega)
    (fun vpn hlt => hkeep vpn (by omega)) (fun vpn _ hlt => hfresh vpn (by omega))

end EAFITos
