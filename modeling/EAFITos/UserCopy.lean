/-
The kernel's access to user memory: `copyin` and `copyout` go page by page,
materialise what is still lazy, and read and write the bytes of the user's
address space.
-/
import EAFITos.Uvm

namespace EAFITos

open List Prog Option

variable {psz dst a len src pte vpn lo hi flag size table : Nat} {m : ByteMem}
  {bytes : List UInt8}

variable {s s' s'' : Phys} {root va : Nat} {keep : Nat → Bool} {held : List Nat}

/-- What `walkaddr` finds. -/
def userPa (m : ByteMem) (root va : Nat) : Option Nat :=
  if va < MAXVA then
    (leafPte m root (va / 4096)).bind fun pte =>
      if hasFlag pte PTE_U then some (PTE2PA pte) else none
  else none

theorem holds_walkaddr {post : Option Nat → Phys → Prop} {onPanic : String → Prop} :
    (walkaddr root va).Holds s post onPanic ↔ post (userPa s.mem root va) s := by
  rw [walkaddr, userPa]
  by_cases hva : va < MAXVA
  · rw [if_neg (by omega), if_pos hva, holds_bind, holds_walk_noalloc hva]
    rcases pteSlot_cases s.mem root va with ⟨hslot, hleaf⟩ | ⟨t, _, hslot, hleaf⟩
    · rw [hslot, hleaf]
      rw [holds_pure, bind_none]
    · rw [hslot, hleaf]
      simp only [holds_bind, loadPte, holds_read, hasFlag_V, decide_eq_false_iff_not]
      generalize s.mem.loadLE (t + 8 * (va / 4096 % 512)) 8 = pte
      by_cases hvalid : pte % 2 = 1
      · rw [if_neg (not_not.2 hvalid), if_pos hvalid, bind_some]
        cases hasFlag pte PTE_U with
        | true => rw [if_neg (by decide), if_pos rfl, holds_pure]
        | false => rw [if_pos rfl, if_neg (by decide), holds_pure]
      · rw [if_pos hvalid, if_neg hvalid, holds_pure, bind_none]
  · rw [if_pos (by omega), if_neg hva, holds_pure]

/-- The user's byte at `a`; memory that is not materialised reads as zero. -/
def byteAt (m : ByteMem) (root a : Nat) : UInt8 :=
  match leafPte m root (a / 4096) with
  | some pte => m (PTE2PA pte + a % 4096)
  | none => 0

theorem byteAt_of_leaf (h : leafPte m root (a / 4096) = some pte) :
    byteAt m root a = m (PTE2PA pte + a % 4096) := by
  rw [byteAt, h]

theorem byteAt_of_none (h : leafPte m root (a / 4096) = none) :
    byteAt m root a = 0 := by
  rw [byteAt, h]

/-- The byte of an owned page is read off the view. -/
theorem byteAt_of_view {bytes : Fin 4096 → UInt8}
    (h : view m root keep (a / 4096) = some ⟨pte, some bytes⟩) :
    byteAt m root a = bytes ⟨a % 4096, Nat.mod_lt _ (by decide)⟩ := by
  rw [view, map_eq_some_iff] at h
  obtain ⟨pte', hpte', hmapping⟩ := h
  rw [byteAt_of_leaf hpte']
  rw [Mapping.mk.injEq] at hmapping
  split at hmapping
  · rw [← some.inj hmapping.2]
    rfl
  · exact absurd hmapping.2 (by simp)

theorem byteAt_congr {m' : ByteMem} (hkeep : keep (a / 4096) = true)
    (h : view m' root keep (a / 4096) = view m root keep (a / 4096)) :
    byteAt m' root a = byteAt m root a := by
  cases hleaf : leafPte m root (a / 4096) with
  | none =>
    have hleaf' : leafPte m' root (a / 4096) = none := by
      rw [leafPte_eq_view _ _ keep, h, ← leafPte_eq_view, hleaf]
    rw [byteAt_of_none hleaf, byteAt_of_none hleaf']
  | some pte =>
    have hview : view m root keep (a / 4096) = some ⟨pte, some (pageBytes m (PTE2PA pte))⟩ := by
      rw [view, hleaf, map_some, hkeep, if_pos rfl]
    rw [byteAt_of_view hview, byteAt_of_view (h.trans hview)]

/-- The owned bytes are the same in both states. -/
def SameBytes (s' s : Phys) (root : Nat) (keep : Nat → Bool) : Prop :=
  ∀ a, keep (a / 4096) = true → byteAt s'.mem root a = byteAt s.mem root a

/-- The mappings have grown by pages materialised below `psz`. -/
def LeafFaulted (s' s : Phys) (root psz : Nat) : Prop :=
  ∀ vpn, vpn < 512 ^ 3 → leafPte s'.mem root vpn = leafPte s.mem root vpn ∨
    (leafPte s.mem root vpn = none ∧ vpn < pgup psz ∧
      ∃ pa, leafPte s'.mem root vpn = some (mkPte pa faultPerm))

theorem LeafFaulted.of_same (h : SameLeaves s' s root) :
    LeafFaulted s' s root psz := fun vpn hvpn => Or.inl (h vpn hvpn)

theorem LeafFaulted.trans (h' : LeafFaulted s'' s' root psz) (h : LeafFaulted s' s root psz) :
    LeafFaulted s'' s root psz := by
  intro vpn hvpn
  rcases h vpn hvpn with hsame | ⟨hnone, hlt, pa, hpte⟩
  · rcases h' vpn hvpn with hsame' | ⟨hnone', hlt', pa', hpte'⟩
    · exact Or.inl (hsame'.trans hsame)
    · rw [hsame] at hnone'
      exact Or.inr ⟨hnone', hlt', pa', hpte'⟩
  · rcases h' vpn hvpn with hsame' | ⟨hnone', _, _⟩
    · exact Or.inr ⟨hnone, hlt, pa, hsame'.trans hpte⟩
    · rw [hpte] at hnone'
      exact absurd hnone' (by simp)

theorem LeafFaulted.none_of_none (h : LeafFaulted s' s root psz) (hvpn : vpn < 512 ^ 3)
    (hnone : leafPte s'.mem root vpn = none) :
    leafPte s.mem root vpn = none := by
  rcases h vpn hvpn with hsame | ⟨hnone', _⟩
  · rw [← hsame, hnone]
  · exact hnone'

/-- Pages have been materialised below `psz`, at addresses from `lo` up to `hi`. -/
structure Faulted (s' s : Phys) (root psz lo hi : Nat) : Prop where
  leaf : LeafFaulted s' s root psz
  outside : ∀ vpn, vpn < 512 ^ 3 → ¬ (lo / 4096 ≤ vpn ∧ vpn * 4096 < hi) →
    leafPte s'.mem root vpn = leafPte s.mem root vpn

theorem Faulted.of_same (h : SameLeaves s' s root) :
    Faulted s' s root psz lo hi := ⟨LeafFaulted.of_same h, fun vpn hvpn _ => h vpn hvpn⟩

theorem Faulted.mono {lo' hi' : Nat} (h : Faulted s' s root psz lo hi)
    (hlo : lo' / 4096 ≤ lo / 4096) (hhi : hi ≤ hi') : Faulted s' s root psz lo' hi' :=
  ⟨h.leaf, fun vpn hvpn hout => h.outside vpn hvpn (by omega)⟩

theorem Faulted.trans (h' : Faulted s'' s' root psz lo hi) (h : Faulted s' s root psz lo hi) :
    Faulted s'' s root psz lo hi := ⟨h'.leaf.trans h.leaf, fun vpn hvpn hout =>
    (h'.outside vpn hvpn hout).trans (h.outside vpn hvpn hout)⟩

/-- The conditions under which the kernel reaches the memory of the process whose
page table is `root`. -/
structure UserEnv (s : Phys) (root : Nat) (keep : Nat → Bool) (held : List Nat)
    (psz : Nat) : Prop where
  sep : Sep s root keep held
  small : psz ≤ TRAPFRAME
  owns : ∀ vpn, vpn < pgup psz → keep vpn = true
  user : ∀ vpn, keep vpn = true → vpn < TFVPN
  pages : ∀ vpn pte, vpn < 512 ^ 3 → leafPte s.mem root vpn = some pte →
    hasFlag pte PTE_U = true → keep vpn = true ∨ PTE2PA pte ∈ held

theorem UserEnv.moved (h : UserEnv s root keep held psz) (hmoved : Moved s' s root keep held held)
    (hleaf : LeafFaulted s' s root psz) :
    UserEnv s' root keep held psz := by
  refine ⟨hmoved.sep h.sep, h.small, h.owns, h.user, ?_⟩
  intro vpn pte hvpn hpte huser
  rcases hleaf vpn hvpn with hsame | ⟨_, hlt, _⟩
  · rw [hsame] at hpte
    exact h.pages vpn pte hvpn hpte huser
  · exact Or.inl (h.owns vpn hlt)

/-- The page `vpn` can be accessed for `flag`, materialising it if need be. -/
structure CanTouch (m : ByteMem) (root psz flag vpn : Nat) : Prop where
  low : vpn < 2 ^ 26
  mapped : ∀ pte, leafPte m root vpn = some pte →
    hasFlag pte PTE_U = true ∧ hasFlag pte flag = true
  lazy : leafPte m root vpn = none → vpn < pgup psz

theorem canTouch_mapped (hlow : vpn < 2 ^ 26) (hpte : leafPte m root vpn = some pte)
    (huser : hasFlag pte PTE_U = true) (hflag : hasFlag pte flag = true) :
    CanTouch m root psz flag vpn := by
  refine ⟨hlow, ?_, ?_⟩
  · intro pte' hpte'
    rw [hpte] at hpte'
    rw [← some.inj hpte']
    exact ⟨huser, hflag⟩
  · intro hnone
    rw [hpte] at hnone
    exact absurd hnone (by simp)

theorem hasFlag_fault {pa : Nat} (hflag : flag < 1024) (h : hasFlag faultPerm flag = true) :
    hasFlag (mkPte pa faultPerm) flag = true := by
  rw [hasFlag_mkPte (by decide) hflag, h, Bool.true_or]

/-- Materialising pages changes nothing about what can be accessed. -/
theorem LeafFaulted.canTouch_iff (h : LeafFaulted s' s root psz) (hflag : flag < 1024)
    (hfault : hasFlag faultPerm flag = true) :
    CanTouch s'.mem root psz flag vpn ↔ CanTouch s.mem root psz flag vpn := by
  by_cases hlow : vpn < 2 ^ 26
  · rcases h vpn (by omega) with hsame | ⟨hnone, hlt, pa, hpte⟩
    · constructor
      · rintro ⟨hlow, hmapped, hlazy⟩
        rw [hsame] at hmapped hlazy
        exact ⟨hlow, hmapped, hlazy⟩
      · rintro ⟨hlow, hmapped, hlazy⟩
        rw [← hsame] at hmapped hlazy
        exact ⟨hlow, hmapped, hlazy⟩
    · constructor
      · rintro _
        refine ⟨hlow, ?_, fun _ => hlt⟩
        intro pte hpte'
        rw [hnone] at hpte'
        exact absurd hpte' (by simp)
      · exact fun _ => canTouch_mapped hlow hpte
          (hasFlag_fault (by decide) (by decide)) (hasFlag_fault hflag hfault)
  · exact ⟨fun h => absurd h.low hlow, fun h => absurd h.low hlow⟩

theorem FaultPost.effects {r : Option Nat} (henv : UserEnv s root keep held psz)
    (h : FaultPost s root keep held psz va r s') :
    Faulted s' s root psz va (va + 1) ∧ SameBytes s' s root keep := by
  have htf : TFVPN = 2 ^ 26 - 2 := rfl
  obtain ⟨_, _, ⟨pa, _, _, hlt, hnone, hmapped⟩ | ⟨_, hview, _⟩⟩ := h
  · have hsame : ∀ vpn, vpn < 512 ^ 3 → vpn ≠ va / 4096 →
        view s'.mem root keep vpn = view s.mem root keep vpn := by
      intro vpn hvpn hne
      rw [hmapped vpn hvpn, if_neg hne]
    have hpage : va / 4096 < pgup psz := by
      rw [pgup]
      omega
    refine ⟨⟨?_, ?_⟩, ?_⟩
    · intro vpn hvpn
      by_cases heq : vpn = va / 4096
      · refine Or.inr ⟨by rw [heq, hnone], by rw [heq]; exact hpage, pa, ?_⟩
        rw [leafPte_eq_view _ _ keep, hmapped vpn hvpn, if_pos heq, map_some]
      · left
        rw [leafPte_eq_view _ _ keep, hsame vpn hvpn heq, ← leafPte_eq_view]
    · intro vpn hvpn hout
      rw [leafPte_eq_view _ _ keep, hsame vpn hvpn (by omega), ← leafPte_eq_view]
    · intro a hkeep
      have hvpn := henv.user _ hkeep
      by_cases heq : a / 4096 = va / 4096
      · have hview := hmapped (a / 4096) (by omega)
        rw [if_pos heq] at hview
        rw [byteAt_of_view hview, byteAt_of_none (by rw [heq, hnone])]
        rfl
      · exact byteAt_congr hkeep (hsame _ (by omega) heq)
  · refine ⟨Faulted.of_same hview.leaves, fun a hkeep => ?_⟩
    have hvpn := henv.user _ hkeep
    exact byteAt_congr hkeep (hview _ (by omega))

/-- What `userPage` does: the page of `va` is found or materialised, or it cannot
be accessed. -/
def UserPagePost (s : Phys) (root : Nat) (keep : Nat → Bool) (held : List Nat)
    (psz va : Nat) (r : Option Nat) (s' : Phys) : Prop :=
  Moved s' s root keep held held ∧ Faulted s' s root psz va (va + 1) ∧
    SameBytes s' s root keep ∧ s.freelist.length ≤ s'.freelist.length + 3 ∧
    ((∃ pte, r = some (PTE2PA pte) ∧ va < MAXVA ∧
        leafPte s'.mem root (va / 4096) = some pte ∧ hasFlag pte PTE_U = true ∧
        CanTouch s.mem root psz PTE_U (va / 4096)) ∨
      (r = none ∧
        (¬ CanTouch s.mem root psz PTE_U (va / 4096) ∨
          (leafPte s.mem root (va / 4096) = none ∧ s.freelist.length < 3))))

theorem userPage_spec (henv : UserEnv s root keep held psz) (halign : va % 4096 = 0) :
    (userPage psz root root va).Holds s (UserPagePost s root keep held psz va)
      (fun _ => False) := by
  have htf : TRAPFRAME = TFVPN * 4096 := rfl
  have htfvpn : TFVPN = 2 ^ 26 - 2 := rfl
  have hsmall := henv.small
  have hmax : MAXVA = 2 ^ 38 := rfl
  rw [userPage, holds_bind, holds_walkaddr]
  cases hpa : userPa s.mem root va with
  | some pa =>
    dsimp only
    rw [holds_pure]
    rw [userPa] at hpa
    split at hpa
    · rename_i hva
      rw [bind_eq_some_iff] at hpa
      obtain ⟨pte, hpte, hif⟩ := hpa
      split at hif
      · rename_i huser
        refine ⟨Moved.refl henv.sep.inv, Faulted.of_same fun _ _ => rfl,
          fun _ _ => rfl, by omega, Or.inl ⟨pte, hif.symm, hva, hpte, huser, ?_⟩⟩
        exact canTouch_mapped (by omega) hpte huser huser
      · exact absurd hif (by simp)
    · exact absurd hpa (by simp)
  | none =>
    refine (vmfault_spec henv.sep (by omega) (fun hlt => henv.owns _ (by
      rw [pgup]
      omega))).imp ?_
    intro r s' hpost
    obtain ⟨hfaulted, hbytes⟩ := hpost.effects henv
    obtain ⟨hmoved, hcount, ⟨pa', hr, hpage, hlt, hnone, hmapped⟩ | ⟨hr, hview, hwhy⟩⟩ := hpost
    · have hvpn : va / 4096 < pgup psz := by
        rw [pgup]
        omega
      have hlow : va / 4096 < 2 ^ 26 := by omega
      have hleaf : leafPte s'.mem root (va / 4096) = some (mkPte pa' faultPerm) := by
        rw [leafPte_eq_view _ _ keep, hmapped _ (by omega), if_pos rfl, map_some]
      have hheap : PTE2PA (mkPte pa' faultPerm) = pa' := PTE2PA_mkPte hpage (by decide)
      refine ⟨hmoved, hfaulted, hbytes, hcount, Or.inl ⟨mkPte pa' faultPerm, ?_, ?_, hleaf,
        hasFlag_fault (by decide) (by decide), hlow, ?_, fun _ => hvpn⟩⟩
      · rw [hheap, hr]
      · omega
      · intro pte hpte
        rw [hnone] at hpte
        exact absurd hpte (by simp)
    · refine ⟨hmoved, hfaulted, hbytes, hcount, Or.inr ⟨hr, ?_⟩⟩
      -- a mapped page lacks `PTE_U`, and an unmapped one is not below the size
      have hblocked : psz ≤ va ∨ leafPte s.mem root (va / 4096) ≠ none →
          ¬ CanTouch s.mem root psz PTE_U (va / 4096) := by
        rintro hwhy ⟨hlow, hmapped, hlazy⟩
        cases hleaf : leafPte s.mem root (va / 4096) with
        | none =>
          have hlt := hlazy hleaf
          rw [pgup] at hlt
          rcases hwhy with hge | hne
          · omega
          · exact hne hleaf
        | some pte =>
          rw [userPa, if_pos (by omega), hleaf, bind_some, if_pos (hmapped pte hleaf).1] at hpa
          exact absurd hpa (by simp)
      by_cases hmapped : leafPte s.mem root (va / 4096) = none
      · rcases hwhy with hge | hmapped' | hfew
        · exact Or.inl (hblocked (Or.inl hge))
        · exact absurd hmapped hmapped'
        · exact Or.inr ⟨hmapped, hfew⟩
      · exact Or.inl (hblocked (Or.inr hmapped))

/-- The owned bytes after `bytes` have been written at the user address `dst`. -/
def Written (s' s : Phys) (root : Nat) (keep : Nat → Bool) (dst : Nat)
    (bytes : List UInt8) : Prop :=
  ∀ a, keep (a / 4096) = true → byteAt s'.mem root a =
    if dst ≤ a ∧ a < dst + bytes.length then bytes.getD (a - dst) 0
    else byteAt s.mem root a

theorem written_nil (h : SameBytes s' s root keep) :
    Written s' s root keep dst [] := by
  intro a hkeep
  rw [h a hkeep, if_neg (by simp)]

theorem Written.of_same {s1 : Phys} (h : Written s' s1 root keep dst bytes)
    (hsame : SameBytes s1 s root keep) :
    Written s' s root keep dst bytes := by
  intro a hkeep
  rw [h a hkeep, hsame a hkeep]

theorem Written.append {s1 : Phys} {rest : List UInt8}
    (h' : Written s' s1 root keep (dst + bytes.length) rest)
    (h : Written s1 s root keep dst bytes) :
    Written s' s root keep dst (bytes ++ rest) := by
  intro a hkeep
  rw [h' a hkeep, h a hkeep, length_append]
  by_cases hfirst : dst ≤ a ∧ a < dst + bytes.length
  · rw [if_neg (by omega), if_pos hfirst, if_pos (by omega), List.getD_append _ _ _ _ (by omega)]
  · rw [if_neg hfirst]
    by_cases hsecond : dst + bytes.length ≤ a ∧ a < dst + bytes.length + rest.length
    · rw [if_pos hsecond, if_pos (by omega), getD_append_right _ _ _ _ (by omega)]
      congr 1
      omega
    · rw [if_neg hsecond, if_neg (by omega)]

/-- Writing inside one user page. -/
theorem written_store (henv : UserEnv s root keep held psz) (hdst : dst / 4096 < 512 ^ 3)
    (hpte : leafPte s.mem root (dst / 4096) = some pte) (huser : hasFlag pte PTE_U = true)
    (hfit : dst % 4096 + bytes.length ≤ 4096) {s' : Phys} (hs' : s' = { s with
      mem := s.mem.storeBytes (PTE2PA pte + dst % 4096) bytes }) :
    Moved s' s root keep held held ∧ SameLeaves s' s root ∧
      Written s' s root keep dst bytes := by
  have htf : TFVPN = 2 ^ 26 - 2 := rfl
  have hpage := PTE2PA_mod pte
  have hframe : Frame (s.mem.storeBytes (PTE2PA pte + dst % 4096) bytes) s.mem [PTE2PA pte] := by
    intro other hother hout
    have hne : other ≠ PTE2PA pte := by simpa using hout
    exact ByteMem.storeBytes_agreeOn s.mem (by omega)
  have hin : PTE2PA pte ∈ ownedLeaves s.mem root keep ++ held := by
    rw [mem_append]
    rcases henv.pages _ pte hdst hpte huser with hkeep | hheld
    · exact Or.inl (henv.sep.leafHeap hdst hkeep hpte).1
    · exact Or.inr hheld
  obtain ⟨hmoved, hleaves⟩ := moved_write henv.sep hframe (cons_subset.2 ⟨hin, nil_subset _⟩)
  rw [← hs'] at hmoved hleaves
  have hmem : s'.mem = s.mem.storeBytes (PTE2PA pte + dst % 4096) bytes := by rw [hs']
  refine ⟨hmoved, hleaves, ?_⟩
  intro a hkeep
  have hvpn := henv.user _ hkeep
  have hleaf := hleaves (a / 4096) (by omega)
  cases hpte' : leafPte s.mem root (a / 4096) with
  | none =>
    rw [byteAt_of_none (hleaf.trans hpte'), byteAt_of_none hpte', if_neg]
    rintro ⟨hlo, hhi⟩
    have hsame : a / 4096 = dst / 4096 := by omega
    rw [hsame, hpte] at hpte'
    exact absurd hpte' (by simp)
  | some pte' =>
    rw [byteAt_of_leaf (hleaf.trans hpte'), byteAt_of_leaf hpte', hmem, ByteMem.storeBytes_apply]
    have hpage' := PTE2PA_mod pte'
    by_cases hsame : a / 4096 = dst / 4096
    · rw [hsame, hpte] at hpte'
      rw [← some.inj hpte']
      by_cases hrange : dst ≤ a ∧ a < dst + bytes.length
      · rw [if_pos (by omega), if_pos hrange]
        congr 1
        omega
      · rw [if_neg (by omega), if_neg hrange]
    · have hne : PTE2PA pte' ≠ PTE2PA pte := by
        intro heq
        have howned := henv.sep.leafHeap (by omega) hkeep hpte'
        rcases henv.pages _ pte hdst hpte huser with hkeep' | hheld
        · exact hsame (henv.sep.leaf_inj hdst hkeep' hpte (by omega) hkeep hpte' heq)
        · rw [heq] at howned
          exact henv.sep.disjoint.2.2.2.2.2.2 _ howned.1 hheld
      rw [if_neg (by omega), if_neg (by omega)]

/-- The number of pages that `len` bytes from `a` on lie in. -/
def touched (a len : Nat) : Nat := pgup (a % 4096 + len)

theorem touched_pos (hlen : 0 < len) : 1 ≤ touched a len := by
  rw [touched, pgup]
  omega

/-- The page of `a`, and the pages after it. -/
theorem touched_next {n : Nat} (hn : min (4096 - a % 4096) len = n) (hrest : n < len) :
    1 + touched (a / 4096 * 4096 + 4096) (len - n) = touched a len := by
  rw [touched, touched, pgup, pgup]
  omega

theorem touched_last (a : Nat) : touched (a / 4096 * 4096 + 4096) 0 = 0 := by
  rw [touched, pgup]
  omega

theorem CanTouch.user (h : CanTouch m root psz flag vpn) :
    CanTouch m root psz PTE_U vpn :=
  ⟨h.low, fun pte hpte => ⟨(h.mapped pte hpte).1, (h.mapped pte hpte).1⟩, h.lazy⟩

/-- The entry of a mapped page is found where `walk` looks for it. -/
theorem pteSlot_of_leaf (h : leafPte m root (va / 4096) = some pte) :
    ∃ slot, pteSlot m root va = some slot ∧ m.loadLE slot 8 = pte := by
  rcases pteSlot_cases m root va with ⟨_, hleaf⟩ | ⟨t, _, hslot, hleaf⟩
  · rw [hleaf] at h
    exact absurd h (by simp)
  · refine ⟨_, hslot, ?_⟩
    rw [hleaf] at h
    split at h
    · exact some.inj h
    · exact absurd h (by simp)

/-- The page of `a` and then the pages after it. -/
theorem Faulted.rest {n : Nat} (h' : Faulted s'' s' root psz (a / 4096 * 4096 + 4096)
      (a / 4096 * 4096 + 4096 + (len - n)))
    (h : Faulted s' s root psz (PGROUNDDOWN a) (PGROUNDDOWN a + 1)) (hlen : 0 < len)
    (hn : min (4096 - a % 4096) len = n) : Faulted s'' s root psz a (a + len) := by
  have hdown : PGROUNDDOWN a = a / 4096 * 4096 := rfl
  refine ⟨h'.leaf.trans h.leaf, fun vpn hvpn hout => ?_⟩
  rw [h'.outside vpn hvpn (by omega), h.outside vpn hvpn (by omega)]

/-- What `copyout` does: the first `w` bytes are written, and it stops early only
at a page that cannot be written or for lack of memory. -/
def CopyoutPost (s : Phys) (root : Nat) (keep : Nat → Bool) (held : List Nat) (psz dst : Nat)
    (src : List UInt8) (r : Int) (s' : Phys) : Prop :=
  Moved s' s root keep held held ∧ Faulted s' s root psz dst (dst + src.length) ∧
    s.freelist.length ≤ s'.freelist.length + 3 * touched dst src.length ∧
    ∃ w, w ≤ src.length ∧ Written s' s root keep dst (src.take w) ∧
      (∀ a, dst ≤ a → a < dst + w → CanTouch s.mem root psz PTE_W (a / 4096)) ∧
      ((r = 0 ∧ w = src.length) ∨
        (r = -1 ∧ w < src.length ∧
          (¬ CanTouch s.mem root psz PTE_W ((dst + w) / 4096) ∨
            (leafPte s.mem root ((dst + w) / 4096) = none ∧
              s.freelist.length < 3 * touched dst src.length))))

theorem copyoutPost_fail {src : List UInt8} (hsrc : src ≠ [])
    (hmoved : Moved s' s root keep held held)
    (hleaf : Faulted s' s root psz (PGROUNDDOWN dst) (PGROUNDDOWN dst + 1))
    (hbytes : SameBytes s' s root keep) (hcount : s.freelist.length ≤ s'.freelist.length + 3)
    (hwhy : ¬ CanTouch s.mem root psz PTE_W (dst / 4096) ∨
      (leafPte s.mem root (dst / 4096) = none ∧ s.freelist.length < 3)) :
    CopyoutPost s root keep held psz dst src (-1) s' := by
  have hlen : 0 < src.length := length_pos_iff.2 hsrc
  have htouched : 1 ≤ touched dst src.length := touched_pos hlen
  have hdown : PGROUNDDOWN dst = dst / 4096 * 4096 := rfl
  refine ⟨hmoved, hleaf.mono (by omega) (by omega), by omega, 0, by omega, ?_,
    fun a hlo hhi => by omega, Or.inr ⟨rfl, hlen, ?_⟩⟩
  · exact written_nil hbytes
  · rcases hwhy with hblocked | ⟨hnone, hfew⟩
    · exact Or.inl hblocked
    · exact Or.inr ⟨hnone, by omega⟩

/-- From `s` on, `userPage` called for the process with size `size` and table
`table` serves the pages of `root` from `lo` up to `hi`. -/
def Serves (size table : Nat) (s : Phys) (root : Nat) (keep : Nat → Bool)
    (held : List Nat) (psz lo hi : Nat) : Prop :=
  ∀ s2 va, UserEnv s2 root keep held psz → LeafFaulted s2 s root psz → va % 4096 = 0 →
    lo < hi → lo / 4096 * 4096 ≤ va → va < hi →
    (userPage size table root va).Holds s2 (UserPagePost s2 root keep held psz va)
      (fun _ => False)

theorem serves_own : Serves psz root s root keep held psz lo hi :=
  fun _ _ henv _ halign _ _ _ => userPage_spec henv halign

/-- Pages that are mapped for the user are served whatever process is running. -/
theorem serves_mapped (hmapped : ∀ a, lo ≤ a → a < hi → a < MAXVA ∧
      ∃ pte, leafPte s.mem root (a / 4096) = some pte ∧ hasFlag pte PTE_U = true) :
    Serves size table s root keep held psz lo hi := by
  intro s2 va henv hleaf halign hlt hlo hhi
  have hmax : MAXVA = 2 ^ 38 := rfl
  obtain ⟨a, hvpn, hloa, hhia⟩ : ∃ a, a / 4096 = va / 4096 ∧ lo ≤ a ∧ a < hi := by
    by_cases hle : lo ≤ va
    · exact ⟨va, rfl, hle, hhi⟩
    · exact ⟨lo, by omega, le_refl _, hlt⟩
  obtain ⟨hmaxa, pte, hpte, huser⟩ := hmapped a hloa hhia
  rw [hvpn] at hpte
  have hpte2 : leafPte s2.mem root (va / 4096) = some pte := by
    rcases hleaf (va / 4096) (by omega) with hsame | ⟨hnone, _⟩
    · rw [hsame, hpte]
    · rw [hpte] at hnone
      exact absurd hnone (by simp)
  have hva : va < MAXVA := by omega
  have hpa : userPa s2.mem root va = some (PTE2PA pte) := by
    rw [userPa, if_pos hva, hpte2, bind_some, if_pos huser]
  rw [userPage, holds_bind, holds_walkaddr, hpa]
  rw [holds_pure]
  refine ⟨Moved.refl henv.sep.inv, Faulted.of_same fun _ _ => rfl, fun _ _ => rfl,
    by omega, Or.inl ⟨pte, rfl, hva, hpte2, huser, ?_⟩⟩
  exact canTouch_mapped (by omega) hpte2 huser huser

theorem copyoutPage_spec {src : List UInt8} {next : Nat → List UInt8 → Prog Phys Int}
    (henv : UserEnv s root keep held psz)
    (hserves : Serves size table s root keep held psz dst (dst + src.length)) (hsrc : src ≠ [])
    (hnext : ∀ s2 dst' src', UserEnv s2 root keep held psz → src'.length < src.length →
      Serves size table s2 root keep held psz dst' (dst' + src'.length) →
      (next dst' src').Holds s2 (CopyoutPost s2 root keep held psz dst' src') (fun _ => False)) :
    (copyoutPage size table root dst src next).Holds s
      (CopyoutPost s root keep held psz dst src) (fun _ => False) := by
  have hmax : MAXVA = 2 ^ 38 := rfl
  have hdown : PGROUNDDOWN dst = dst / 4096 * 4096 := rfl
  have hvpn : PGROUNDDOWN dst / 4096 = dst / 4096 := by omega
  have hlen : 0 < src.length := length_pos_iff.2 hsrc
  have hfault : hasFlag faultPerm PTE_W = true := by decide
  rw [copyoutPage]
  by_cases hhigh : PGROUNDDOWN dst ≥ MAXVA
  · rw [if_pos hhigh, holds_pure]
    refine copyoutPost_fail hsrc (Moved.refl henv.sep.inv)
      (Faulted.of_same fun _ _ => rfl) (fun _ _ => rfl) (by omega) (Or.inl ?_)
    intro hcan
    have := hcan.low
    omega
  rw [if_neg hhigh, holds_bind]
  refine (hserves s _ henv (LeafFaulted.of_same fun _ _ => rfl) (PGROUNDDOWN_mod dst)
    (by omega) hdown.ge (by omega)).imp ?_
  rintro r s1 ⟨hmoved1, hfaulted1, hbytes1, hcount1, ⟨pte, hr, hva, hpte, huser, hcan⟩ | ⟨hr, hwhy⟩⟩
  · have hleaf1 := hfaulted1.leaf
    rw [hvpn] at hpte hcan
    have henv1 := henv.moved hmoved1 hleaf1
    rw [hr]
    rw [holds_bind, holds_walk_noalloc hva]
    have hpte0 : leafPte s1.mem root (PGROUNDDOWN dst / 4096) = some pte := by
      rw [hvpn]
      exact hpte
    obtain ⟨slot, hslot, hload⟩ := pteSlot_of_leaf hpte0
    rw [hslot]
    rw [holds_bind, loadPte, holds_read, hload]
    by_cases hwrite : hasFlag pte PTE_W = false
    · rw [if_pos hwrite, holds_pure]
      refine copyoutPost_fail hsrc hmoved1 hfaulted1 hbytes1 hcount1 (Or.inl ?_)
      rw [← hleaf1.canTouch_iff (by decide) hfault]
      intro hcan'
      rw [(hcan'.mapped pte hpte).2] at hwrite
      exact absurd hwrite (by decide)
    · have hwrite' : hasFlag pte PTE_W = true := by simpa using hwrite
      have hcan1 : CanTouch s1.mem root psz PTE_W (dst / 4096) :=
        canTouch_mapped (by omega) hpte huser hwrite'
      have hcans : CanTouch s.mem root psz PTE_W (dst / 4096) :=
        (hleaf1.canTouch_iff (by decide) hfault).1 hcan1
      rw [if_neg hwrite, holds_bind, holds_update]
      have hoff : dst - PGROUNDDOWN dst = dst % 4096 := by omega
      rw [hoff]
      have hpages : PGSIZE - dst % 4096 = 4096 - dst % 4096 := rfl
      have hnextva : PGROUNDDOWN dst + PGSIZE = dst / 4096 * 4096 + 4096 := rfl
      rw [hpages, hnextva]
      generalize hn : min (4096 - dst % 4096) src.length = n
      have htake : (src.take n).length = n := by
        rw [length_take]
        omega
      have hdrop : (src.drop n).length = src.length - n := length_drop
      have hfit : dst % 4096 + (src.take n).length ≤ 4096 := by omega
      obtain ⟨hmoved2, hleaves2, hwritten2⟩ := written_store henv1 (by omega) hpte huser hfit rfl
      generalize hs2 : ({ s1 with
        mem := s1.mem.storeBytes (PTE2PA pte + dst % 4096) (src.take n) } : Phys) = s2
        at hmoved2 hleaves2 hwritten2 ⊢
      have hlist2 : s2.freelist = s1.freelist := by rw [← hs2]
      have hleaf2 : LeafFaulted s2 s root psz := (LeafFaulted.of_same hleaves2).trans hleaf1
      have henv2 := henv1.moved hmoved2 (LeafFaulted.of_same hleaves2)
      have hserves2 : Serves size table s2 root keep held psz (dst / 4096 * 4096 + 4096)
          (dst / 4096 * 4096 + 4096 + (src.drop n).length) := by
        intro s3 va henv3 hleaf3 halign hlt hlo hhi
        obtain ⟨hlt', hlo', hhi'⟩ : dst < dst + src.length ∧ dst / 4096 * 4096 ≤ va ∧
            va < dst + src.length := by
          omega
        exact hserves s3 va henv3 (hleaf3.trans hleaf2) halign hlt' hlo' hhi'
      refine (hnext s2 _ _ henv2 (by omega) hserves2).imp ?_
      rintro r' s' ⟨hmoved', hleaf', hcount', w, hw, hwritten, hcanw, hend⟩
      rw [hdrop] at hw hend hcount' hleaf'
      rw [hlist2] at hcount' hend
      have hmovedAll := hmoved'.trans (hmoved2.trans hmoved1)
      have hleafAll : Faulted s' s root psz dst (dst + src.length) :=
        hleaf'.rest ((Faulted.of_same hleaves2).trans hfaulted1) hlen hn
      have hfirst : Written s2 s root keep dst (src.take n) := hwritten2.of_same hbytes1
      have hcanfirst : ∀ a, dst ≤ a → a < dst + n → CanTouch s.mem root psz PTE_W (a / 4096) := by
        intro a hlo hhi
        have hsame : a / 4096 = dst / 4096 := by omega
        rw [hsame]
        exact hcans
      by_cases hall : n = src.length
      · -- the last page: nothing is left for the rest of the loop
        have hw0 : w = 0 := by omega
        have hrest : touched (dst / 4096 * 4096 + 4096) (src.length - n) = 0 := by
          rw [hall, Nat.sub_self]
          exact touched_last dst
        have htouched : 1 ≤ touched dst src.length := touched_pos hlen
        have hr' : r' = 0 := by
          rcases hend with h | h
          · exact h.1
          · omega
        refine ⟨hmovedAll, hleafAll, by omega, src.length, le_refl _, ?_, ?_, Or.inl ⟨hr', rfl⟩⟩
        · rw [hw0, take_zero] at hwritten
          rw [take_length]
          rw [hall, take_length] at hfirst
          intro a hkeep
          rw [hwritten a hkeep, if_neg (by simp), hfirst a hkeep]
        · rw [← hall]
          exact hcanfirst
      · have hdst : dst / 4096 * 4096 + 4096 = dst + n := by omega
        have htouched : 1 + touched (dst / 4096 * 4096 + 4096) (src.length - n) =
            touched dst src.length := touched_next hn (by omega)
        have htouched' := htouched
        rw [hdst] at htouched'
        rw [← htake] at hdst
        rw [hdst] at hwritten hcanw hend
        have hsplit : src.take (n + w) = src.take n ++ (src.drop n).take w := take_add
        refine ⟨hmovedAll, hleafAll, by omega, n + w, by omega, ?_, ?_, ?_⟩
        · rw [hsplit]
          exact hwritten.append hfirst
        · intro a hlo hhi
          by_cases hin : a < dst + n
          · exact hcanfirst a hlo hin
          · rw [← hleaf2.canTouch_iff (by decide) hfault]
            exact hcanw a (by omega) (by omega)
        · rw [htake] at hend
          rcases hend with ⟨hr0, hw'⟩ | ⟨hr1, hw', hwhy⟩
          · exact Or.inl ⟨hr0, by omega⟩
          · refine Or.inr ⟨hr1, by omega, ?_⟩
            rw [hleaf2.canTouch_iff (by decide) hfault, Nat.add_assoc] at hwhy
            rcases hwhy with hblocked | ⟨hnone, hfew⟩
            · exact Or.inl hblocked
            · by_cases hlow : (dst + (n + w)) / 4096 < 2 ^ 26
              · exact Or.inr ⟨hleaf2.none_of_none (by omega) hnone, by omega⟩
              · exact Or.inl fun hcan => hlow hcan.low
  · rw [hr]
    rw [holds_pure]
    rw [hvpn] at hwhy
    refine copyoutPost_fail hsrc hmoved1 hfaulted1 hbytes1 hcount1 ?_
    rcases hwhy with hblocked | hfew
    · exact Or.inl fun hcan => hblocked hcan.user
    · exact Or.inr hfew

theorem copyoutPost_nil (hinv : PtInv s root) :
    CopyoutPost s root keep held psz dst [] 0 s :=
  ⟨Moved.refl hinv, Faulted.of_same fun _ _ => rfl, by omega, 0,
    le_refl _, written_nil fun _ _ => rfl, fun a hlo hhi => by omega, Or.inl ⟨rfl, rfl⟩⟩

theorem copyoutLoop_spec (fuel : Nat) {src : List UInt8} (henv : UserEnv s root keep held psz)
    (hserves : Serves size table s root keep held psz dst (dst + src.length))
    (hfuel : src.length ≤ fuel) :
    (copyoutLoop size table root fuel dst src).Holds s
      (CopyoutPost s root keep held psz dst src) (fun _ => False) := by
  induction fuel generalizing s dst src with
  | zero =>
    have hnil : src = [] := length_eq_zero_iff.1 (by omega)
    rw [hnil, copyoutLoop, holds_pure]
    exact copyoutPost_nil henv.sep.inv
  | succ fuel ih =>
    cases src with
    | nil =>
      rw [copyoutLoop, holds_pure]
      exact copyoutPost_nil henv.sep.inv
    | cons b tail =>
      exact copyoutPage_spec henv hserves (cons_ne_nil b tail)
        fun s2 dst' src' henv2 hlt hserves2 => ih henv2 hserves2 (by omega)

/-- What `copyin` does: it delivers the user's bytes, and fails only at a page that
cannot be accessed or for lack of memory. -/
def CopyinPost (s : Phys) (root : Nat) (keep : Nat → Bool) (held : List Nat) (psz src : Nat)
    (len : Nat) (r : Option (List UInt8)) (s' : Phys) : Prop :=
  Moved s' s root keep held held ∧ Faulted s' s root psz src (src + len) ∧
    SameBytes s' s root keep ∧
    s.freelist.length ≤ s'.freelist.length + 3 * touched src len ∧
    ((∃ bytes, r = some bytes ∧ bytes.length = len ∧
        (∀ i, i < len → keep ((src + i) / 4096) = true →
          bytes.getD i 0 = byteAt s.mem root (src + i)) ∧
        ∀ a, src ≤ a → a < src + len → CanTouch s.mem root psz PTE_U (a / 4096)) ∨
      (r = none ∧
        ((∃ a, src ≤ a ∧ a < src + len ∧ ¬ CanTouch s.mem root psz PTE_U (a / 4096)) ∨
          s.freelist.length < 3 * touched src len)))

theorem copyinPage_spec {next : Nat → Nat → Prog Phys (Option (List UInt8))}
    (henv : UserEnv s root keep held psz) (hlen : 0 < len)
    (hnext : ∀ s2 src' len', UserEnv s2 root keep held psz → len' < len →
      (next src' len').Holds s2 (CopyinPost s2 root keep held psz src' len') (fun _ => False)) :
    (copyinPage psz root root src len next).Holds s
      (CopyinPost s root keep held psz src len) (fun _ => False) := by
  have hdown : PGROUNDDOWN src = src / 4096 * 4096 := rfl
  have hvpn : PGROUNDDOWN src / 4096 = src / 4096 := by omega
  have hfault : hasFlag faultPerm PTE_U = true := by decide
  have htouched1 : 1 ≤ touched src len := touched_pos hlen
  rw [copyinPage, holds_bind]
  refine (userPage_spec henv (PGROUNDDOWN_mod src)).imp ?_
  rintro r s1 ⟨hmoved1, hfaulted1, hbytes1, hcount1, ⟨pte, hr, hva, hpte, huser, hcan⟩ | ⟨hr, hwhy⟩⟩
  · have hleaf1 := hfaulted1.leaf
    rw [hvpn] at hpte hcan
    have henv1 := henv.moved hmoved1 hleaf1
    rw [hr]
    simp only [holds_bind, holds_read]
    have hoff : src - PGROUNDDOWN src = src % 4096 := by omega
    have hpages : PGSIZE - src % 4096 = 4096 - src % 4096 := rfl
    have hnextva : PGROUNDDOWN src + PGSIZE = src / 4096 * 4096 + 4096 := rfl
    rw [hoff, hpages, hnextva]
    generalize hn : min (4096 - src % 4096) len = n
    -- the bytes read from this page are the user's
    have hread : ∀ i, i < n → keep ((src + i) / 4096) = true →
        (s1.mem.loadBytes (PTE2PA pte + src % 4096) n).getD i 0 = byteAt s.mem root (src + i) := by
      intro i hi hkeep
      have hsame : (src + i) / 4096 = src / 4096 := by omega
      have hmod : (src + i) % 4096 = src % 4096 + i := by omega
      rw [ByteMem.getD_loadBytes _ hi, ← hbytes1 _ hkeep,
        byteAt_of_leaf (by rw [hsame]; exact hpte), hmod, Nat.add_assoc]
    have hcanfirst : ∀ a, src ≤ a → a < src + n → CanTouch s.mem root psz PTE_U (a / 4096) := by
      intro a hlo hhi
      have hsame : a / 4096 = src / 4096 := by omega
      rw [hsame]
      exact hcan
    refine (hnext s1 _ (len - n) henv1 (by omega)).imp ?_
    rintro r' s' ⟨hmoved', hleaf', hbytes', hcount', hend⟩
    have hmovedAll := hmoved'.trans hmoved1
    have hleafAll : Faulted s' s root psz src (src + len) := hleaf'.rest hfaulted1 hlen hn
    have hbytesAll : SameBytes s' s root keep :=
      fun a hkeep => (hbytes' a hkeep).trans (hbytes1 a hkeep)
    have hpagecount : 1 + touched (src / 4096 * 4096 + 4096) (len - n) ≤ touched src len := by
      by_cases hall : n < len
      · exact (touched_next hn hall).le
      · have hzero : len - n = 0 := by omega
        rw [hzero, touched_last]
        exact htouched1
    have hcount : s.freelist.length ≤ s'.freelist.length + 3 * touched src len := by
      omega
    rcases hend with ⟨rest, hr', hrestlen, hrest, hcanrest⟩ | ⟨hr', hwhy⟩
    · rw [hr']
      rw [holds_pure]
      refine ⟨hmovedAll, hleafAll, hbytesAll, hcount, Or.inl ⟨_, rfl, ?_, ?_, ?_⟩⟩
      · rw [length_append, ByteMem.length_loadBytes, hrestlen]
        omega
      · intro i hi hkeep
        by_cases hin : i < n
        · rw [List.getD_append _ _ _ _ (by rw [ByteMem.length_loadBytes]; exact hin)]
          exact hread i hin hkeep
        · rw [getD_append_right _ _ _ _ (by rw [ByteMem.length_loadBytes]; omega),
            ByteMem.length_loadBytes]
          have haddr : src / 4096 * 4096 + 4096 + (i - n) = src + i := by omega
          have h := hrest (i - n) (by omega)
          rw [haddr] at h
          rw [h hkeep, hbytes1 _ hkeep]
      · intro a hlo hhi
        by_cases hin : a < src + n
        · exact hcanfirst a hlo hin
        · rw [← hleaf1.canTouch_iff (by decide) hfault]
          exact hcanrest a (by omega) (by omega)
    · rw [hr']
      rw [holds_pure]
      refine ⟨hmovedAll, hleafAll, hbytesAll, hcount, Or.inr ⟨rfl, ?_⟩⟩
      rcases hwhy with ⟨a, hlo, hhi, hblocked⟩ | hfew
      · rw [hleaf1.canTouch_iff (by decide) hfault] at hblocked
        exact Or.inl ⟨a, by omega, by omega, hblocked⟩
      · exact Or.inr (by omega)
  · rw [hr]
    rw [holds_pure]
    rw [hvpn] at hwhy
    refine ⟨hmoved1, hfaulted1.mono (by omega) (by omega), hbytes1, by omega, Or.inr ⟨rfl, ?_⟩⟩
    rcases hwhy with hblocked | ⟨_, hfew⟩
    · exact Or.inl ⟨src, le_refl _, by omega, hblocked⟩
    · exact Or.inr (by omega)

theorem copyinPost_zero (hinv : PtInv s root) :
    CopyinPost s root keep held psz src 0 (some []) s :=
  ⟨Moved.refl hinv, Faulted.of_same fun _ _ => rfl, fun _ _ => rfl, by omega,
    Or.inl ⟨[], rfl, rfl, fun i hi => absurd hi (Nat.not_lt_zero i), fun a hlo hhi => by omega⟩⟩

theorem copyinLoop_spec (fuel : Nat) (henv : UserEnv s root keep held psz) (hfuel : len ≤ fuel) :
    (copyinLoop psz root root fuel src len).Holds s
      (CopyinPost s root keep held psz src len) (fun _ => False) := by
  induction fuel generalizing s src len with
  | zero =>
    have hzero : len = 0 := by omega
    rw [hzero, copyinLoop, holds_pure]
    exact copyinPost_zero henv.sep.inv
  | succ fuel ih =>
    cases len with
    | zero =>
      rw [copyinLoop, holds_pure]
      exact copyinPost_zero henv.sep.inv
    | succ len =>
      exact copyinPage_spec henv (Nat.succ_pos len) fun s2 src' len' henv2 hlt =>
        ih henv2 (by omega)

theorem copyout_spec {src : List UInt8} (henv : UserEnv s root keep held psz) :
    (copyout psz root root dst src).Holds s
      (CopyoutPost s root keep held psz dst src) (fun _ => False) := by
  exact copyoutLoop_spec src.length henv serves_own (le_refl _)

theorem copyout_mapped {src : List UInt8} (henv : UserEnv s root keep held 0)
    (hmapped : ∀ a, dst ≤ a → a < dst + src.length → a < MAXVA ∧
      ∃ pte, leafPte s.mem root (a / 4096) = some pte ∧ hasFlag pte PTE_U = true ∧
        hasFlag pte PTE_W = true) :
    (copyout size table root dst src).Holds s
      (fun r s' => r = 0 ∧ Moved s' s root keep held held ∧ SameLeaves s' s root ∧
        Written s' s root keep dst src ∧ s.freelist.length ≤
          s'.freelist.length + 3 * touched dst src.length) (fun _ => False) := by
  have hmax : MAXVA = 2 ^ 38 := rfl
  have hserves : Serves size table s root keep held 0 dst (dst + src.length) := by
    apply serves_mapped
    intro a hlo hhi
    obtain ⟨hlt, pte, hpte, huser, _⟩ := hmapped a hlo hhi
    exact ⟨hlt, pte, hpte, huser⟩
  refine (copyoutLoop_spec src.length henv hserves (le_refl _)).imp ?_
  rintro r s' ⟨hmoved, hleaf, hcount, w, hw, hwritten, _, hend⟩
  have hleaves : SameLeaves s' s root := by
    intro vpn hvpn
    rcases hleaf.leaf vpn hvpn with hsame | ⟨_, hlt, _⟩
    · exact hsame
    · exact absurd hlt (Nat.not_lt_zero vpn)
  rcases hend with ⟨hr, hall⟩ | ⟨_, hlt, hwhy⟩
  · rw [hall, take_length] at hwritten
    exact ⟨hr, hmoved, hleaves, hwritten, hcount⟩
  · obtain ⟨hva, pte, hpte, huser, hwrite⟩ := hmapped (dst + w) (by omega) (by omega)
    rcases hwhy with hblocked | ⟨hnone, _⟩
    · exact absurd (canTouch_mapped (by omega) hpte huser hwrite) hblocked
    · rw [hpte] at hnone
      exact absurd hnone (by simp)

theorem copyin_spec (henv : UserEnv s root keep held psz) :
    (copyin psz root root src len).Holds s
      (CopyinPost s root keep held psz src len) (fun _ => False) := by
  exact copyinLoop_spec len henv (le_refl _)

theorem length_of_upToNul {str : List UInt8} (h : upToNul bytes = some str) :
    str.length < bytes.length := by
  induction bytes generalizing str with
  | nil => cases h
  | cons b rest ih =>
    rw [upToNul] at h
    split at h
    · cases h
      exact Nat.succ_pos _
    · obtain ⟨str', hstr', rfl⟩ := map_eq_some_iff.1 h
      exact Nat.succ_lt_succ (ih hstr')

theorem copyinstrLoop_spec (fuel : Nat) {room : Nat} (hfuel : room ≤ fuel) :
    (copyinstrLoop root fuel src room).Holds s
      (fun r s' => s' = s ∧ ∀ str, r = some str → str.length < room) (fun _ => False) := by
  induction fuel generalizing src room with
  | zero =>
    obtain rfl : room = 0 := Nat.le_zero.mp hfuel
    rw [copyinstrLoop, holds_pure]
    exact ⟨rfl, nofun⟩
  | succ fuel ih =>
    cases room with
    | zero =>
      rw [copyinstrLoop, holds_pure]
      exact ⟨rfl, nofun⟩
    | succ room =>
      rw [copyinstrLoop, holds_bind, holds_walkaddr]
      cases userPa s.mem root (PGROUNDDOWN src) with
      | none =>
        rw [holds_pure]
        exact ⟨rfl, nofun⟩
      | some pa =>
        simp only [holds_bind, holds_read]
        have hdown : PGROUNDDOWN src = src / 4096 * 4096 := rfl
        have hpos : 0 < min (PGSIZE - (src - PGROUNDDOWN src)) (room + 1) := by
          rw [PGSIZE]
          omega
        split
        · rename_i str hstr
          rw [holds_pure]
          refine ⟨rfl, fun str' heq => ?_⟩
          have hlen := length_of_upToNul hstr
          rw [ByteMem.length_loadBytes] at hlen
          cases heq
          omega
        · rw [holds_bind]
          refine (ih (by omega)).imp ?_
          rintro r s' ⟨hs', hlen⟩
          cases r with
          | none =>
            rw [holds_pure]
            exact ⟨hs', nofun⟩
          | some rest =>
            rw [holds_pure]
            refine ⟨hs', fun str' heq => ?_⟩
            cases heq
            have hrest := hlen rest rfl
            rw [length_append, ByteMem.length_loadBytes]
            omega

theorem copyinstr_spec {max : Nat} : (copyinstr root src max).Holds s
      (fun r s' => s' = s ∧ ∀ str, r = some str → str.length < max) (fun _ => False) := by
  exact copyinstrLoop_spec max (le_refl _)

/-! ## A page that has been mapped -/

theorem byteAt_mapped {root b : Nat} {c : UInt8} {keep : Nat → Bool}
    (hmapped : Mapped s' s root keep vpn ⟨pte, some fun _ => c⟩) (hb : b / 4096 < 512 ^ 3)
    (hkeep : keep (b / 4096) = true) :
    byteAt s'.mem root b = if b / 4096 = vpn then c else byteAt s.mem root b := by
  have hview := hmapped (b / 4096) hb
  split
  · next heq =>
    rw [if_pos heq] at hview
    rw [byteAt_of_view hview]
  · next hne =>
    rw [if_neg hne] at hview
    exact byteAt_congr hkeep hview

theorem leafPte_mapped {root : Nat} {mapping : Mapping} {keep : Nat → Bool}
    (hmapped : Mapped s' s root keep vpn mapping) :
    ∀ v, v < 512 ^ 3 → leafPte s'.mem root v =
      if v = vpn then some mapping.pte else leafPte s.mem root v := by
  intro v hv
  rw [leafPte_eq_view _ _ keep, hmapped v hv]
  split
  · rfl
  · rw [← leafPte_eq_view]

/-! ## What copies do to the memory of a user -/

/-- Pages below the size may have been materialised, and bytes may have changed where the user
can write. -/
structure UserFaulted (s' s : Phys) (root : Nat) (keep : Nat → Bool) (psz : Nat) : Prop where
  leaf : LeafFaulted s' s root psz
  bytes : ∀ a, keep (a / 4096) = true → byteAt s'.mem root a ≠ byteAt s.mem root a →
    CanTouch s.mem root psz PTE_W (a / 4096)

theorem UserFaulted.of_same (hleaves : SameLeaves s' s root) (hbytes : SameBytes s' s root keep) :
    UserFaulted s' s root keep psz :=
  ⟨LeafFaulted.of_same hleaves, fun a hkeep hne => absurd (hbytes a hkeep) hne⟩

theorem UserFaulted.refl (s : Phys) (root : Nat) (keep : Nat → Bool) (psz : Nat) :
    UserFaulted s s root keep psz := UserFaulted.of_same (fun _ _ => rfl) fun _ _ => rfl

theorem CopyinPost.userFaulted {r : Option (List UInt8)}
    (h : CopyinPost s root keep held psz src len r s') : UserFaulted s' s root keep psz := by
  obtain ⟨-, hfaulted, hbytes, -⟩ := h
  exact ⟨hfaulted.leaf, fun a hkeep hne => absurd (hbytes a hkeep) hne⟩

theorem CopyoutPost.userFaulted {src : List UInt8} {r : Int}
    (h : CopyoutPost s root keep held psz dst src r s') : UserFaulted s' s root keep psz := by
  obtain ⟨-, hfaulted, -, w, hw, hwritten, hcan, -⟩ := h
  refine ⟨hfaulted.leaf, fun a hkeep hne => ?_⟩
  have hbyte := hwritten a hkeep
  split at hbyte
  · next hin =>
    rw [length_take_of_le hw] at hin
    exact hcan a hin.1 hin.2
  · exact absurd hbyte hne

end EAFITos
