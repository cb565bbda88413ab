/-
What the system calls on memory and the user's loads and stores do to the kernel:
each changes the slot of the calling process alone.
-/
import EAFITos.Slots
import EAFITos.Demand

namespace EAFITos

open Function List Prog Option

variable {va flag pa : Nat} {onPanic : String → Prop}

variable {own : Policy} {k k' : Kernel} {held : List Nat} {i : Nat}

variable {a0 root : Nat} {m : ByteMem}

variable {n : Int} {post : PUnit → Kernel → Prop} {size pte : Nat} {s' : Phys} {p : Proc}

/-- The process in slot `i` is running and owns what it can reach. -/
structure Acts (own : Policy) (held : List Nat) (k : Kernel) (i : Nat) : Prop where
  inv : KInv own held k
  slot : i < NPROC
  running : (k.proc i).state = .RUNNABLE
  low : ∀ vpn, vpn < pgup (k.proc i).sz → own i (k.proc i).sz vpn = true
  user : ∀ vpn, own i (k.proc i).sz vpn = true → vpn < TFVPN
  pages : ∀ vpn pte, vpn < 512 ^ 3 →
    leafPte k.phys.mem (k.proc i).pagetable vpn = some pte → hasFlag pte PTE_U = true →
      own i (k.proc i).sz vpn = true ∨ PTE2PA pte ∈ held

namespace Acts

section

variable (h : Acts own held k i)
include h

theorem used : (k.proc i).state ≠ .UNUSED := by
  rw [h.running]
  decide

theorem live : Live k.phys (k.proc i) := h.inv.live i h.slot h.used

theorem sep :
    Sep k.phys (k.proc i).pagetable (own i (k.proc i).sz) ((k.proc i).trapframe :: held) :=
  h.inv.sep h.slot h.used

theorem userEnv :
    UserEnv k.phys (k.proc i).pagetable (own i (k.proc i).sz) ((k.proc i).trapframe :: held)
      (k.proc i).sz where
  sep := h.sep
  small := h.live.small
  owns := h.low
  user := h.user
  pages := fun vpn pte hvpn hpte huser =>
    (h.pages vpn pte hvpn hpte huser).imp_right (mem_cons_of_mem _)

theorem small : pgup (k.proc i).sz ≤ TFVPN := pgup_le h.live.small

end

end Acts

/-- `sbrk` as arithmetic: the new size, or `none` when it fails. -/
def sbrkSize (sz : Nat) (n : Int) : Option Nat :=
  if n < 0 then some (min (addInt sz n) sz)
  else if addInt sz n < sz ∨ TRAPFRAME < addInt sz n then none
  else some (addInt sz n)

theorem sbrkSize_le {sz sz' : Nat} (hsz : sz ≤ TRAPFRAME) (h : sbrkSize sz n = some sz') :
    sz' ≤ TRAPFRAME := by
  rw [sbrkSize] at h
  split at h
  · rw [← some.inj h]
    exact (Nat.min_le_right _ _).trans hsz
  · split at h
    · exact absurd h (by simp)
    · rw [← some.inj h]
      omega

/-- The kernel after the process in slot `i` has become `p'` and memory `s'`. -/
def putSlot (k : Kernel) (i : Nat) (s' : Phys) (p' : Proc) : Kernel :=
  { k with phys := s', proc := Function.update k.proc i p' }

/-- `sbrk`: growing moves `sz` alone, shrinking unmaps the pages beyond it. -/
theorem sysSbrk_spec (h : Acts own held k i)
    (hgrow : ∀ sz', sbrkSize (k.proc i).sz (argint a0) = some sz' → ∀ vpn, vpn < 512 ^ 3 →
      leafPte k.phys.mem (k.proc i).pagetable vpn ≠ none →
      ¬ (pgup sz' ≤ vpn ∧ vpn < pgup (k.proc i).sz) → own i sz' vpn = own i (k.proc i).sz vpn) :
    (sysSbrk i a0).Holds k (fun r k' =>
        (sbrkSize (k.proc i).sz (argint a0) = none ∧ r = -1 ∧ k' = k) ∨
          ∃ sz' s', sbrkSize (k.proc i).sz (argint a0) = some sz' ∧ r = (k.proc i).sz ∧
            k' = putSlot k i s' { k.proc i with sz := sz' } ∧ Touched own k' k [i] held held ∧
            Unmapped s' k.phys (k.proc i).pagetable (own i (k.proc i).sz) (pgup sz')
              (pgup (k.proc i).sz - pgup sz') ∧
            Released s' k.phys (k.proc i).pagetable (pgup sz') (pgup (k.proc i).sz - pgup sz') ∧
            ((k.proc i).sz ≤ sz' → s' = k.phys))
      (fun _ => False) := by
  have hlive := h.live
  have hsmall : (k.proc i).sz ≤ TFVPN * 4096 := hlive.small
  -- both directions end in a change of `sz` over some unmapping
  have hend : ∀ sz' s', sbrkSize (k.proc i).sz (argint a0) = some sz' →
      Moved s' k.phys (k.proc i).pagetable (own i (k.proc i).sz)
        ((k.proc i).trapframe :: held) ((k.proc i).trapframe :: held) →
      Unmapped s' k.phys (k.proc i).pagetable (own i (k.proc i).sz) (pgup sz')
        (pgup (k.proc i).sz - pgup sz') →
      Touched own (putSlot k i s' { k.proc i with sz := sz' }) k [i] held held := by
    intro sz' s' hsize hmoved hun
    have hpages := h.small
    refine h.inv.moved h.slot h.used hmoved ?_ ?_ ?_ rfl
    · intro vpn hlo hlt
      exact hun.leaf_other (by omega) (by omega)
    · exact ⟨rfl, rfl, h.used, sbrkSize_le hlive.small hsize,
        ⟨hlive.region.start, hlive.region.size, hlive.region.fits⟩, hlive.alive⟩
    · intro vpn hvpn hleaf
      have hout : ¬ (pgup sz' ≤ vpn ∧ vpn < pgup (k.proc i).sz) := by
        intro hin
        exact hleaf (hun.leaf_in hvpn (by omega))
      rw [hun.leaf_other hvpn (by omega)] at hleaf
      exact hgrow sz' hsize vpn hvpn hleaf hout
  rw [sysSbrk, holds_bind, getProc, holds_read]
  by_cases hneg : argint a0 < 0
  · have hsize : sbrkSize (k.proc i).sz (argint a0) =
        some (min (addInt (k.proc i).sz (argint a0)) (k.proc i).sz) := by
      rw [sbrkSize, if_pos hneg]
    rw [if_pos hneg, holds_bind, growproc, holds_bind, getProc, holds_read,
      if_neg (by omega), if_pos hneg, holds_bind, onPhys, holds_zoom]
    refine (uvmdealloc_spec h.sep (hsmall.trans (by decide)) fun vpn _ hlt _ => h.low vpn hlt).imp ?_
    rintro r s' ⟨hr, hmoved, hun, hfreed, hsame⟩
    have hun' : Unmapped s' k.phys (k.proc i).pagetable (own i (k.proc i).sz) (pgup r)
          (pgup (k.proc i).sz - pgup r) ∧
        Released s' k.phys (k.proc i).pagetable (pgup r) (pgup (k.proc i).sz - pgup r) ∧
        ((k.proc i).sz ≤ r → s' = k.phys) := by
      rw [hr]
      rcases Nat.le_total (addInt (k.proc i).sz (argint a0)) (k.proc i).sz with hle | hle
      · rw [Nat.min_eq_left hle]
        exact ⟨hun, hfreed, hsame⟩
      · rw [Nat.min_eq_right hle, Nat.sub_self, unmapped_zero_iff, hsame hle]
        exact ⟨SameView.refl _, released_zero _ _ _, fun _ => rfl⟩
    rw [holds_bind, setProc, holds_update, holds_pure, if_neg (by decide), holds_pure]
    rw [← hr] at hsize
    exact Or.inr ⟨r, s', hsize, rfl, rfl, hend r s' hsize hmoved hun'.1, hun'⟩
  · rw [if_neg hneg]
    by_cases hlow : addInt (k.proc i).sz (argint a0) < (k.proc i).sz
    · rw [if_pos hlow, holds_pure]
      left
      rw [sbrkSize, if_neg hneg, if_pos (Or.inl hlow)]
      exact ⟨rfl, rfl, rfl⟩
    · rw [if_neg hlow]
      by_cases hhigh : addInt (k.proc i).sz (argint a0) > TRAPFRAME
      · rw [if_pos hhigh, holds_pure]
        left
        rw [sbrkSize, if_neg hneg, if_pos (Or.inr hhigh)]
        exact ⟨rfl, rfl, rfl⟩
      · rw [if_neg hhigh, holds_bind, setProc, holds_update, holds_pure]
        have hsize : sbrkSize (k.proc i).sz (argint a0) =
            some (addInt (k.proc i).sz (argint a0)) := by
          rw [sbrkSize, if_neg hneg, if_neg (not_or.2 ⟨hlow, hhigh⟩)]
        have hun : Unmapped k.phys k.phys (k.proc i).pagetable (own i (k.proc i).sz)
            (pgup (addInt (k.proc i).sz (argint a0)))
            (pgup (k.proc i).sz - pgup (addInt (k.proc i).sz (argint a0))) := by
          rw [Nat.sub_eq_zero_of_le (pgup_mono (by omega)), unmapped_zero_iff]
          exact SameView.refl _
        refine Or.inr ⟨_, k.phys, hsize, rfl, rfl, hend _ _ hsize (Moved.refl hlive.inv) hun, hun,
          ?_, fun _ => rfl⟩
        rw [Nat.sub_eq_zero_of_le (pgup_mono (by omega))]
        exact released_zero _ _ _

theorem holds_getProc {post : Proc → Kernel → Prop} :
    (getProc i).Holds k post onPanic ↔ post (k.proc i) k := by
  rw [getProc, holds_read]

theorem holds_setProc {f : Proc → Proc} :
    (setProc i f).Holds k post onPanic ↔ post ⟨⟩ (putSlot k i k.phys (f (k.proc i))) := by
  rw [setProc, holds_update]
  rfl

theorem holds_onPhys {α : Type} {x : Prog Phys α} {post : α → Kernel → Prop} :
    (onPhys x).Holds k post onPanic ↔
      x.Holds k.phys (fun r s' => post r { k with phys := s' }) onPanic := by
  rw [onPhys, holds_zoom]

/-- `mapzero` as arithmetic: the size of the region, or `none` when it fails. -/
def regionSize (n : Int) : Option Nat :=
  if n ≤ 0 ∨ addInt regionStart (pgroundupInt n) < regionStart ∨
      TRAPFRAME ≤ addInt regionStart (pgroundupInt n) then none
  else some (pgroundupInt n).toNat

theorem argint_lt (a0 : Nat) : argint a0 < 2 ^ 31 := by
  rw [argint, wrap32]
  omega

/-- A region that passes the checks of `mapzero` is not empty and ends below the
trapframe. -/
theorem regionSize_bounds (hn : n < 2 ^ 31) (h : regionSize n = some size) :
    0 < size ∧ size % 4096 = 0 ∧ regionStart + size < TRAPFRAME := by
  have htf : TRAPFRAME = 2 ^ 38 - 8192 := rfl
  have hstart : regionStart = 0x70000000 := rfl
  rw [regionSize] at h
  split at h
  · cases h
  · rename_i hok
    cases h
    rw [addInt, pgroundupInt, wrap32, hstart, htf] at hok
    rw [pgroundupInt, wrap32, hstart, htf]
    omega

theorem regionOk_mapzero (p : Proc)
    (h : 0 < size ∧ size % 4096 = 0 ∧ regionStart + size < TRAPFRAME) :
    RegionOk { p with
      hasRegion := true
      region := ⟨regionStart, size⟩ } := by
  refine ⟨fun _ => rfl, fun _ => h.2.1, fun _ => ?_⟩
  dsimp only
  omega

/-- `mapzero` writes down a region or fails. -/
theorem sysMapzero_spec (h : Acts own held k i) :
    (sysMapzero i a0).Holds k
      (fun r k' => (((k.proc i).hasRegion = true ∨ regionSize (argint a0) = none) ∧
          r = -1 ∧ k' = k) ∨
        ∃ size, (k.proc i).hasRegion = false ∧ regionSize (argint a0) = some size ∧
          r = regionStart ∧ k' = putSlot k i k.phys { k.proc i with
            hasRegion := true
            region := ⟨regionStart, size⟩ } ∧ Touched own k' k [i] held held)
      (fun _ => False) := by
  have hlive := h.live
  rw [sysMapzero]
  by_cases hpos : argint a0 ≤ 0
  · rw [if_pos hpos, holds_pure]
    exact Or.inl ⟨Or.inr (if_pos (Or.inl hpos)), rfl, rfl⟩
  rw [if_neg hpos, holds_bind, holds_getProc]
  cases hregion : (k.proc i).hasRegion with
  | true =>
    rw [if_pos rfl, holds_pure]
    exact Or.inl ⟨Or.inl rfl, rfl, rfl⟩
  | false =>
    rw [if_neg Bool.false_ne_true]
    by_cases hlow : addInt regionStart (pgroundupInt (argint a0)) < regionStart
    · rw [if_pos hlow, holds_pure]
      exact Or.inl ⟨Or.inr (if_pos (Or.inr (Or.inl hlow))), rfl, rfl⟩
    rw [if_neg hlow]
    by_cases hhigh : addInt regionStart (pgroundupInt (argint a0)) ≥ TRAPFRAME
    · rw [if_pos hhigh, holds_pure]
      exact Or.inl ⟨Or.inr (if_pos (Or.inr (Or.inr hhigh))), rfl, rfl⟩
    rw [if_neg hhigh, holds_bind, holds_setProc, holds_pure]
    have hsize : regionSize (argint a0) = some (pgroundupInt (argint a0)).toNat :=
      if_neg fun hbad => hbad.elim hpos fun hbad => hbad.elim hlow hhigh
    refine Or.inr ⟨_, rfl, hsize, rfl, rfl, ?_⟩
    refine h.inv.setProcs (i := i) h.slot h.used ?_ ?_ ?_ rfl
    · rw [update_self]
      exact ⟨rfl, rfl, h.used, hlive.small,
        regionOk_mapzero _ (regionSize_bounds (argint_lt a0) hsize), hlive.alive⟩
    · rw [update_self]
    · intro j _ hji
      rw [update_of_ne hji]
      exact ⟨rfl, fun _ => rfl⟩

/-- A step on the page table of the running process that leaves its size alone. -/
theorem Acts.touched (h : Acts own held k i) {p' : Proc}
    (hmoved : Moved s' k.phys (k.proc i).pagetable (own i (k.proc i).sz)
      ((k.proc i).trapframe :: held) ((k.proc i).trapframe :: held))
    (hfixed : ∀ vpn, TFVPN ≤ vpn → vpn < 2 ^ 26 → leafPte s'.mem (k.proc i).pagetable vpn =
        leafPte k.phys.mem (k.proc i).pagetable vpn) (hkept : Kept p' (k.proc i))
    (hsz : p'.sz = (k.proc i).sz) :
    Touched own (putSlot k i s' p') k [i] held held :=
  h.inv.moved h.slot h.used hmoved hfixed hkept (fun _ _ _ => by rw [hsz]) rfl

/-- The byte with which a fault fills the page of `va`, if it maps one at all. -/
def faultByte (p : Proc) (va : Nat) : Option UInt8 :=
  if inRegion p va then some 0x41 else if va < p.sz then some 0 else none

theorem inRegion_iff : inRegion p va = true ↔ p.hasRegion = true ∧ p.region.start ≤ va ∧
      va < p.region.start + p.region.size := by
  rw [inRegion, Bool.and_eq_true, Bool.and_eq_true, decide_eq_true_iff, decide_eq_true_iff,
    and_assoc]

/-- A fault can only map a page below the trapframe. -/
theorem faultByte_lt {c : UInt8} (hsmall : p.sz ≤ TRAPFRAME) (hregion : RegionOk p)
    (h : faultByte p va = some c) : va < TRAPFRAME := by
  rw [faultByte] at h
  split at h
  · rename_i hin
    obtain ⟨hhas, _, hlt⟩ := inRegion_iff.1 hin
    have hfits := hregion.fits hhas
    omega
  · split at h
    · omega
    · exact absurd h (by simp)

/-- What a page fault at `va` does: a page filled with one byte is mapped, or the
process is to be killed. -/
def HandledPost (own : Policy) (held : List Nat) (k : Kernel) (i va : Nat) (k' : Kernel) :
    Prop :=
  ∃ s', Moved s' k.phys (k.proc i).pagetable (own i (k.proc i).sz)
      ((k.proc i).trapframe :: held) ((k.proc i).trapframe :: held) ∧
    k.phys.freelist.length ≤ s'.freelist.length + 3 ∧
    ((∃ c pa, faultByte (k.proc i) va = some c ∧ pa % 4096 = 0 ∧
        leafPte k.phys.mem (k.proc i).pagetable (va / 4096) = none ∧
        Mapped s' k.phys (k.proc i).pagetable (own i (k.proc i).sz) (va / 4096)
          ⟨mkPte pa faultPerm, some fun _ => c⟩ ∧
        k' = putSlot k i s'
          { k.proc i with pageFaults := wrap32 ((k.proc i).pageFaults + 1) }) ∨
      (SameView s' k.phys (k.proc i).pagetable (own i (k.proc i).sz) ∧
        (faultByte (k.proc i) va = none ∨
          leafPte k.phys.mem (k.proc i).pagetable (va / 4096) ≠ none ∨
          k.phys.freelist.length < 3) ∧
        k' = putSlot k i s' { k.proc i with killed := true }))

/-- The same with what the page takes from the free list: the fault fails only where no page
may be mapped, where one is mapped, or for lack of memory. -/
def FaultExact (own : Policy) (held : List Nat) (k : Kernel) (i va : Nat) (k' : Kernel) :
    Prop :=
  ∃ s', Moved s' k.phys (k.proc i).pagetable (own i (k.proc i).sz)
      ((k.proc i).trapframe :: held) ((k.proc i).trapframe :: held) ∧
    k.phys.freelist.length ≤ s'.freelist.length + 3 ∧
    ((∃ c pa, faultByte (k.proc i) va = some c ∧ pa % 4096 = 0 ∧
        leafPte k.phys.mem (k.proc i).pagetable (va / 4096) = none ∧
        Mapped s' k.phys (k.proc i).pagetable (own i (k.proc i).sz) (va / 4096)
          ⟨mkPte pa faultPerm, some fun _ => c⟩ ∧
        Materialised s'.mem k.phys.mem (k.proc i).pagetable (va / 4096) ∧
        k.phys.freelist.length = s'.freelist.length +
          need k.phys.mem (k.proc i).pagetable (va / 4096) ∧
        k' = putSlot k i s'
          { k.proc i with pageFaults := wrap32 ((k.proc i).pageFaults + 1) }) ∨
      (SameView s' k.phys (k.proc i).pagetable (own i (k.proc i).sz) ∧
        (faultByte (k.proc i) va = none ∨
          leafPte k.phys.mem (k.proc i).pagetable (va / 4096) ≠ none ∨
          k.phys.freelist.length < need k.phys.mem (k.proc i).pagetable (va / 4096)) ∧
        k' = putSlot k i s' { k.proc i with killed := true }))

theorem FaultExact.handled (h : FaultExact own held k i va k') :
    HandledPost own held k i va k' := by
  obtain ⟨s', hmoved, hcount, ⟨c, pa, hbyte, hpage, hnone, hmapped, -, -, hk'⟩ |
    ⟨hview, hwhy, hk'⟩⟩ := h
  · exact ⟨s', hmoved, hcount, Or.inl ⟨c, pa, hbyte, hpage, hnone, hmapped, hk'⟩⟩
  · refine ⟨s', hmoved, hcount, Or.inr ⟨hview, hwhy.imp_right (Or.imp_right fun hfew => ?_), hk'⟩⟩
    exact Nat.lt_of_lt_of_le hfew (need_le _ _ _)

/-- What the fault handler needs of the process: its page table is apart from the free list
and from its trapframe, and it owns the page that it may map. -/
structure FaultEnv (own : Policy) (held : List Nat) (k : Kernel) (i va : Nat) : Prop where
  sep : Sep k.phys (k.proc i).pagetable (own i (k.proc i).sz) ((k.proc i).trapframe :: held)
  small : (k.proc i).sz ≤ TRAPFRAME
  region : RegionOk (k.proc i)
  owns : va < (k.proc i).sz ∨ inRegion (k.proc i) va = true →
    own i (k.proc i).sz (va / 4096) = true

theorem Acts.faultEnv (h : Acts own held k i) (hfull : (k.proc i).hasRegion = true →
      ∀ vpn, vpn < TFVPN → own i (k.proc i).sz vpn = true) : FaultEnv own held k i va where
  sep := h.sep
  small := h.live.small
  region := h.live.region
  owns := by
    have htf : TRAPFRAME = TFVPN * 4096 := rfl
    rintro (hlt | hin)
    · apply h.low
      rw [pgup]
      omega
    · have hhas := (inRegion_iff.1 hin).1
      have hva := faultByte_lt h.live.small h.live.region (if_pos hin)
      exact hfull hhas _ (by omega)

section

variable (h : FaultEnv own held k i va)
include h

/-- The region branch of the page-fault handler. -/
theorem regionFault_exact (hin : inRegion (k.proc i) va = true) :
    (regionFault i va).Holds k (fun _ k' => FaultExact own held k i va k') (fun _ => False) := by
  have htf : TRAPFRAME = TFVPN * 4096 := rfl
  have htfvpn : TFVPN = 2 ^ 26 - 2 := rfl
  have hmax : MAXVA = 2 ^ 38 := rfl
  have hdown : PGROUNDDOWN va = va / 4096 * 4096 := rfl
  have hbyte : faultByte (k.proc i) va = some 0x41 := if_pos hin
  have hlt := faultByte_lt h.small h.region hbyte
  have hva : PGROUNDDOWN va < MAXVA := by omega
  have hvpn : PGROUNDDOWN va / 4096 = va / 4096 := by omega
  have hrefl : Moved k.phys k.phys (k.proc i).pagetable (own i (k.proc i).sz)
      ((k.proc i).trapframe :: held) ((k.proc i).trapframe :: held) := Moved.refl h.sep.inv
  rw [regionFault, holds_bind, holds_getProc, holds_bind, holds_onPhys, holds_ismapped hva, hvpn]
  cases hleaf : leafPte k.phys.mem (k.proc i).pagetable (va / 4096) with
  | some pte =>
    rw [isSome_some, if_pos rfl, setkilled, holds_setProc]
    exact ⟨k.phys, hrefl, by omega, Or.inr ⟨SameView.refl _,
      Or.inr (Or.inl (by rw [hleaf]; exact some_ne_none _)), rfl⟩⟩
  | none =>
    rw [isSome_none, if_neg Bool.false_ne_true, holds_bind, holds_onPhys, holds_kalloc]
    constructor
    · intro hnil
      rw [setkilled, holds_setProc]
      exact ⟨k.phys, hrefl, by omega, Or.inr ⟨SameView.refl _,
        Or.inr (Or.inr (by rw [hnil, need, if_pos hleaf]; exact Nat.succ_pos _)), rfl⟩⟩
    · intro pa rest hfree
      simp only [holds_bind, holds_onPhys, memset, holds_update]
      have hkeep : own i (k.proc i).sz (PGROUNDDOWN va / 4096) = true :=
        hvpn.symm ▸ h.owns (Or.inr hin)
      have hperm : faultPerm < 1024 := by decide
      have hrun := mappages_filled (c := 0x41) h.sep hfree hva (PGROUNDDOWN_mod va) hperm
        (by decide) hkeep
      have hdemand := mappages_demand (c := 0x41) h.sep hfree hva (PGROUNDDOWN_mod va) hperm
        (by rw [hvpn]; exact hleaf)
      rw [hvpn] at hdemand
      refine (hrun.and hdemand).mono ?_ ?_
      · rintro r s1 ⟨⟨_, ⟨hr, hmoved, hmapped, hcount⟩ | ⟨hr, hmoved, hview, hcount⟩⟩, hfail, hok⟩
        · rw [hr, if_neg (by decide), countFault, holds_setProc]
          rw [hvpn] at hmapped
          have hpa : pa ∈ k.phys.freelist := hfree ▸ mem_cons_self
          exact ⟨s1, hmoved, hcount.2.1, Or.inl ⟨0x41, pa, hbyte,
            (h.sep.inv.free_heap hpa).1, hleaf, hmapped, (hok hr).1, (hok hr).2, rfl⟩⟩
        · rw [hr, if_pos (by decide), holds_bind, holds_onPhys]
          refine (kfree_held (hmoved.sep h.sep)).mono ?_ nofun
          rintro _ s2 ⟨hgiven, hview'⟩
          rw [setkilled, holds_setProc]
          exact ⟨s2, hgiven.trans hmoved, by omega, Or.inr ⟨hview'.trans hview,
            Or.inr (Or.inr (hfail (by rw [hr]; decide))), rfl⟩⟩
      · rintro message ⟨⟨_, hmapped⟩, -⟩
        rw [hvpn, hleaf] at hmapped
        exact absurd hmapped (by simp)

/-- The page-fault handler. -/
theorem handleFault_exact : (handleFault i va).Holds k (fun _ k' => FaultExact own held k i va k')
      (fun _ => False) := by
  have hsmall := h.small
  rw [handleFault, holds_bind, holds_getProc]
  by_cases hin : inRegion (k.proc i) va = true
  · rw [if_pos hin]
    exact regionFault_exact h hin
  · rw [if_neg hin, holds_bind, holds_onPhys]
    have hkeep : va < (k.proc i).sz → own i (k.proc i).sz (va / 4096) = true :=
      fun hlt => h.owns (Or.inl hlt)
    have hpsz : (k.proc i).sz ≤ 2 ^ 38 := hsmall.trans (by decide)
    refine ((vmfault_spec h.sep hpsz hkeep).and (vmfault_demand h.sep hpsz)).mono ?_
      (fun _ hbad => hbad.1)
    rintro r s' ⟨⟨hmoved, hcount, ⟨pa, hr, hpage, hlt, hnone, hmapped⟩ | ⟨hr, hview, -⟩⟩, hfail,
      hok⟩
    · rw [hr]
      rw [countFault, holds_setProc]
      refine ⟨s', hmoved, hcount, Or.inl ⟨0, pa, ?_, hpage, hnone, hmapped, (hok pa hr).1,
        (hok pa hr).2, rfl⟩⟩
      rw [faultByte, if_neg hin, if_pos hlt]
    · rw [hr]
      rw [setkilled, holds_setProc]
      refine ⟨s', hmoved, hcount, Or.inr ⟨hview, ?_, rfl⟩⟩
      rcases hfail hr with hge | hmapped
      · left
        rw [faultByte, if_neg hin, if_neg (by omega)]
      · exact Or.inr hmapped

theorem handleFault_spec : (handleFault i va).Holds k (fun _ k' => HandledPost own held k i va k')
      (fun _ => False) := (handleFault_exact h).imp fun _ _ hpost => hpost.handled

end

/-- The process table after the children of `i` have been passed to init. -/
def reparented (k : Kernel) (i j : Nat) : Proc :=
  if (k.proc j).parent = some i then { k.proc j with parent := some k.initproc }
  else k.proc j

/-- The kernel after the exit of process `i`. -/
def exitKernel (k : Kernel) (i : Nat) (status : Int) : Kernel :=
  { k with
    proc := Function.update (reparented k i) i
      { reparented k i i with xstate := status, state := .ZOMBIE } }

theorem holds_kexit {status : Int} : (kexit i status).Holds k post onPanic ↔
      (i = k.initproc → onPanic "init exiting") ∧
        (i ≠ k.initproc → post ⟨⟩ (exitKernel k i status)) := by
  rw [kexit, holds_bind, holds_read, holds_ite, holds_panic,
    holds_bind, reparent, holds_update, setProc, holds_update]
  rfl

theorem reparented_eq (k : Kernel) (i j : Nat) :
    reparented k i j = { k.proc j with parent := (reparented k i j).parent } := by
  rw [reparented]
  split <;> rfl

/-- An exit leaves the memory of the process to the parent that will wait. -/
theorem KInv.exit (h : KInv own held k) (hi : i < NPROC)
    (hused : (k.proc i).state ≠ .UNUSED) (killed : Bool) (status : Int) :
    Touched own (exitKernel (putSlot k i k.phys { k.proc i with killed := killed }) i status)
      k [i] held held := by
  have hlive := h.live i hi hused
  have hself : ∀ j, j ≠ i →
      (putSlot k i k.phys { k.proc i with killed := killed }).proc j = k.proc j :=
    fun j hji => update_of_ne hji _ _
  have hi' : (putSlot k i k.phys { k.proc i with killed := killed }).proc i =
      { k.proc i with killed := killed } := update_self i _ _
  refine h.setProcs (i := i) hi hused ?_ ?_ ?_ rfl
  · rw [update_self, reparented_eq, hi']
    exact ⟨rfl, rfl, ProcState.noConfusion, hlive.small,
      ⟨hlive.region.start, hlive.region.size, hlive.region.fits⟩, ProcState.noConfusion⟩
  · rw [update_self, reparented_eq, hi']
  · intro j hj hji
    rw [update_of_ne hji]
    refine ⟨?_, ?_⟩
    · have heq := reparented_eq (putSlot k i k.phys { k.proc i with killed := killed }) i j
      rwa [hself j hji] at heq
    · intro hunused
      rw [reparented, hself j hji, h.unused j hj hunused]
      rfl

/-- No access to `va` that needs `flag` can succeed, whatever memory is free. -/
def Blocked (k : Kernel) (i va flag : Nat) : Prop :=
  translate k.phys.mem (k.proc i).pagetable va flag = none ∧
    (faultByte (k.proc i) va = none ∨
      leafPte k.phys.mem (k.proc i).pagetable (va / 4096) ≠ none)

/-- A user access to `va` that goes through: the page is mapped, or has just been
mapped by the fault handler. -/
def AccessOk (own : Policy) (k : Kernel) (i va flag pa : Nat) (k' : Kernel) : Prop :=
  ∃ s' faults pte, k' = putSlot k i s' { k.proc i with pageFaults := faults } ∧
    va < MAXVA ∧ pa = PTE2PA pte + va % 4096 ∧
    leafPte s'.mem (k.proc i).pagetable (va / 4096) = some pte ∧
    hasFlag pte PTE_U = true ∧ hasFlag pte flag = true ∧
    ((s' = k.phys ∧ faults = (k.proc i).pageFaults) ∨
      ∃ c page, faultByte (k.proc i) va = some c ∧ pte = mkPte page faultPerm ∧
        leafPte k.phys.mem (k.proc i).pagetable (va / 4096) = none ∧
        Mapped s' k.phys (k.proc i).pagetable (own i (k.proc i).sz) (va / 4096)
          ⟨pte, some fun _ => c⟩)

/-- What a user access does: it goes through, or the process is killed. -/
def AccessPost (own : Policy) (held : List Nat) (k : Kernel) (i va flag : Nat)
    (r : Option Nat) (k' : Kernel) : Prop :=
  Touched own k' k [i] held held ∧
    k.phys.freelist.length ≤ k'.phys.freelist.length + 3 ∧
    match r with
    | some pa => AccessOk own k i va flag pa k'
    | none => (Blocked k i va flag ∨ k.phys.freelist.length < 3) ∧ ∃ s',
        SameView s' k.phys (k.proc i).pagetable (own i (k.proc i).sz) ∧
        k' = exitKernel (putSlot k i s' { k.proc i with killed := true }) i (-1)

theorem translate_of_leaf (hva : va < MAXVA) (hpte : leafPte m root (va / 4096) = some pte)
    (huser : hasFlag pte PTE_U = true) (hflag : hasFlag pte flag = true) :
    translate m root va flag = some (PTE2PA pte + va % 4096) := by
  have hpg : va / PGSIZE = va / 4096 := rfl
  rw [translate, if_pos hva, hpg, hpte]
  dsimp only
  rw [huser, hflag, Bool.and_self, if_pos rfl]
  rfl

theorem leaf_of_translate (h : translate m root va flag = some pa) :
    va < MAXVA ∧ ∃ pte, leafPte m root (va / 4096) = some pte ∧
      hasFlag pte PTE_U = true ∧ hasFlag pte flag = true ∧ pa = PTE2PA pte + va % 4096 := by
  have hpg : va / PGSIZE = va / 4096 := rfl
  rw [translate, hpg] at h
  split at h
  · rename_i hva
    cases hpte : leafPte m root (va / 4096) with
    | none =>
      rw [hpte] at h
      exact absurd h (by simp)
    | some pte =>
      rw [hpte] at h
      dsimp only at h
      split at h
      · rename_i hflags
        rw [Bool.and_eq_true] at hflags
        exact ⟨hva, pte, rfl, hflags.1, hflags.2, (some.inj h).symm⟩
      · exact absurd h (by simp)
  · exact absurd h (by simp)

theorem userAccess_spec (h : Acts own held k i) (hflag : flag < 1024)
    (hfault : hasFlag faultPerm flag = true) (hfull : (k.proc i).hasRegion = true →
      ∀ vpn, vpn < TFVPN → own i (k.proc i).sz vpn = true) :
    (userAccess i va flag).Holds k (AccessPost own held k i va flag)
      (fun message => message = "init exiting" ∧ i = k.initproc ∧
        (Blocked k i va flag ∨ k.phys.freelist.length < 3)) := by
  have htf : TRAPFRAME = TFVPN * 4096 := rfl
  have htfvpn : TFVPN = 2 ^ 26 - 2 := rfl
  have hmax : MAXVA = 2 ^ 38 := rfl
  have hlive := h.live
  rw [userAccess, holds_bind, holds_getProc, holds_bind, holds_read]
  cases htrans : translate k.phys.mem (k.proc i).pagetable va flag with
  | some pa =>
    rw [holds_pure]
    obtain ⟨hva, pte, hpte, huser, hflags, hpa⟩ := leaf_of_translate htrans
    have hself : k = putSlot k i k.phys (k.proc i) := by
      rw [putSlot, update_eq_self]
    refine ⟨?_, by omega, k.phys, (k.proc i).pageFaults, pte, hself, hva, hpa, hpte,
      huser, hflags, Or.inl ⟨rfl, rfl⟩⟩
    exact (Touched.refl h.inv).mono (nil_subset _)
  | none =>
    rw [holds_bind, usertrap, holds_bind]
    refine (handleFault_spec (h.faultEnv hfull)).mono ?_ nofun
    rintro _ k1 ⟨s', hmoved, hcount, ⟨c, page, hbyte, hpage, hnone, hmapped, hk1⟩ |
      ⟨hview, hwhy, hk1⟩⟩
    · have hva := faultByte_lt hlive.small hlive.region hbyte
      have hproc : k1.proc i =
          { k.proc i with pageFaults := wrap32 ((k.proc i).pageFaults + 1) } := by
        rw [hk1]
        exact update_self _ _ _
      have hleaf : leafPte s'.mem (k.proc i).pagetable (va / 4096) =
          some (mkPte page faultPerm) := by
        rw [leafPte_eq_view _ _ (own i (k.proc i).sz), hmapped _ (by omega), if_pos rfl, map_some]
      have hphys : k1.phys = s' := by rw [hk1]; rfl
      have huser : hasFlag (mkPte page faultPerm) PTE_U = true :=
        hasFlag_fault (by decide) (by decide)
      have hflags : hasFlag (mkPte page faultPerm) flag = true := hasFlag_fault hflag hfault
      have hmaxva : va < MAXVA := by omega
      rw [holds_bind, holds_getProc, hproc, hlive.alive h.running,
        if_neg Bool.false_ne_true, holds_pure, holds_bind, holds_getProc, hproc,
        if_neg (by rw [h.running]; decide), holds_bind, holds_read, hphys,
        translate_of_leaf hmaxva hleaf huser hflags]
      rw [holds_pure, hk1]
      refine ⟨?_, hcount, s', _, _, rfl, hmaxva, rfl, hleaf, huser, hflags,
        Or.inr ⟨c, page, hbyte, rfl, hnone, hmapped⟩⟩
      refine h.touched hmoved ?_ ?_ rfl
      · intro vpn hlo hlt
        rw [leafPte_eq_view _ _ (own i (k.proc i).sz), hmapped _ (by omega),
          if_neg (by omega), ← leafPte_eq_view]
      · exact ⟨rfl, rfl, h.used, hlive.small,
          ⟨hlive.region.start, hlive.region.size, hlive.region.fits⟩, hlive.alive⟩
    · have hproc : k1.proc i = { k.proc i with killed := true } := by
        rw [hk1]
        exact update_self _ _ _
      have hreason : Blocked k i va flag ∨ k.phys.freelist.length < 3 := by
        rcases hwhy with hno | hmapped | hfew
        · exact Or.inl ⟨htrans, Or.inl hno⟩
        · exact Or.inl ⟨htrans, Or.inr hmapped⟩
        · exact Or.inr hfew
      have hinit : k1.initproc = k.initproc := by rw [hk1]; rfl
      rw [holds_bind, holds_getProc, hproc, if_pos rfl, holds_kexit, hinit]
      refine ⟨fun heq => ⟨rfl, heq, hreason⟩, fun _ => ?_⟩
      have hzombie : ((exitKernel k1 i (-1)).proc i).state = .ZOMBIE := by
        rw [exitKernel]
        dsimp only
        rw [update_self]
      rw [holds_bind, holds_getProc, if_pos hzombie, holds_pure]
      have hfirst : Touched own (putSlot k i s' (k.proc i)) k [i] held held := by
        refine h.touched hmoved (fun vpn _ hlt => hview.leaves vpn (by omega)) ?_ rfl
        exact hlive.kept h.used
      have hself : (putSlot k i s' (k.proc i)).proc i = k.proc i := update_self _ _ _
      have hexit := hfirst.inv.exit h.slot (by rw [hself]; exact h.used) true (-1)
      have hsame : putSlot (putSlot k i s' (k.proc i)) i (putSlot k i s' (k.proc i)).phys
          { (putSlot k i s' (k.proc i)).proc i with killed := true } = k1 := by
        rw [hself, hk1, putSlot, putSlot, putSlot]
        rw [update_idem]
      rw [hsame] at hexit
      refine ⟨(hexit.trans hfirst).mono ?_, ?_, hreason, s', hview, by rw [hk1]⟩
      · exact append_subset.2 ⟨List.Subset.refl _, List.Subset.refl _⟩
      · rw [hk1]
        exact hcount

/-- Only an owned page shows its bytes. -/
theorem keep_of_view {vpn : Nat} {keep : Nat → Bool} {bytes : Fin 4096 → UInt8}
    (h : view m root keep vpn = some ⟨pte, some bytes⟩) :
    keep vpn = true := by
  rw [view, map_eq_some_iff] at h
  obtain ⟨pte', _, hmapping⟩ := h
  rw [Mapping.mk.injEq] at hmapping
  by_contra hkeep
  rw [if_neg hkeep] at hmapping
  exact absurd hmapping.2 (by simp)

/-- The byte a user reads at `va` when the access goes through. -/
def userByte (k : Kernel) (i va : Nat) : UInt8 :=
  match leafPte k.phys.mem (k.proc i).pagetable (va / 4096) with
  | some _ => byteAt k.phys.mem (k.proc i).pagetable va
  | none => (faultByte (k.proc i) va).getD 0

theorem AccessOk.not_blocked (h : AccessOk own k i va flag pa k') :
    ¬ Blocked k i va flag := by
  obtain ⟨s', faults, pte, _, hva, _, hpte, huser, hflag, hcase⟩ := h
  rintro ⟨htrans, hwhy⟩
  rcases hcase with ⟨hs', _⟩ | ⟨c, page, hbyte, _, hnone, _⟩
  · rw [hs'] at hpte
    rw [translate_of_leaf hva hpte huser hflag] at htrans
    exact absurd htrans (by simp)
  · rcases hwhy with hno | hleaf
    · rw [hbyte] at hno
      exact absurd hno (by simp)
    · exact hleaf hnone

theorem AccessOk.read (h : AccessOk own k i va flag pa k') :
    k'.phys.mem pa = userByte k i va := by
  obtain ⟨s', faults, pte, hk', hva, hpa, hpte, _, _, hcase⟩ := h
  have hmax : MAXVA = 2 ^ 38 := rfl
  have hphys : k'.phys = s' := by rw [hk']; rfl
  rw [hphys, hpa, ← byteAt_of_leaf hpte, userByte]
  rcases hcase with ⟨hs', _⟩ | ⟨c, page, hbyte, _, hnone, hmapped⟩
  · rw [hs'] at hpte ⊢
    rw [hpte]
  · have hview := hmapped (va / 4096) (by omega)
    rw [if_pos rfl] at hview
    rw [byteAt_of_view hview, hnone, hbyte]
    rfl

/-- The process goes on after an access. -/
theorem AccessOk.acts (hacts : Acts own held k i) (h : AccessOk own k i va flag pa k')
    (htouched : Touched own k' k [i] held held) :
    Acts own held k' i := by
  obtain ⟨s', faults, pte, hk', hva, _, _, _, _, hcase⟩ := h
  have hphys : k'.phys = s' := by rw [hk']; rfl
  have hproc : k'.proc i = { k.proc i with pageFaults := faults } := by
    rw [hk']
    exact update_self _ _ _
  refine ⟨htouched.inv, hacts.slot, ?_, ?_, ?_, ?_⟩
  · rw [hproc]
    exact hacts.running
  · rw [hproc]
    exact hacts.low
  · rw [hproc]
    exact hacts.user
  · rw [hproc, hphys]
    intro vpn pte' hvpn hpte' huser
    rcases hcase with ⟨hs', _⟩ | ⟨c, page, _, _, _, hmapped⟩
    · rw [hs'] at hpte'
      exact hacts.pages vpn pte' hvpn hpte' huser
    · have hview := hmapped vpn hvpn
      by_cases heq : vpn = va / 4096
      · rw [if_pos heq] at hview
        exact Or.inl (keep_of_view hview)
      · rw [if_neg heq] at hview
        have hsame : leafPte s'.mem (k.proc i).pagetable vpn =
            leafPte k.phys.mem (k.proc i).pagetable vpn := by
          rw [leafPte_eq_view _ _ (own i (k.proc i).sz), hview, ← leafPte_eq_view]
        exact hacts.pages vpn pte' hvpn (hsame ▸ hpte') huser

/-- What a load does. -/
def LoadPost (own : Policy) (held : List Nat) (k : Kernel) (i va : Nat)
    (r : Option UInt8) (k' : Kernel) : Prop :=
  ∃ pa, AccessPost own held k i va PTE_R pa k' ∧ r = pa.map fun _ => userByte k i va

theorem userLoad_spec (h : Acts own held k i) (hfull : (k.proc i).hasRegion = true →
      ∀ vpn, vpn < TFVPN → own i (k.proc i).sz vpn = true) :
    (userLoad i va).Holds k (LoadPost own held k i va)
      (fun message => message = "init exiting" ∧ i = k.initproc ∧
        (Blocked k i va PTE_R ∨ k.phys.freelist.length < 3)) := by
  rw [userLoad, holds_bind]
  refine (userAccess_spec h (by decide) (by decide) hfull).imp ?_
  intro r k' hpost
  cases r with
  | none =>
    rw [holds_pure]
    exact ⟨none, hpost, rfl⟩
  | some pa =>
    rw [holds_bind, holds_read, holds_pure]
    refine ⟨some pa, hpost, ?_⟩
    rw [hpost.2.2.read]
    rfl

/-- What a store does: the access, and then one byte changes. -/
def StorePost (own : Policy) (held : List Nat) (k : Kernel) (i va : Nat) (b : UInt8)
    (r : Bool) (k' : Kernel) : Prop :=
  (r = false ∧ AccessPost own held k i va PTE_W none k') ∨
    ∃ pa k1 s', r = true ∧ AccessPost own held k i va PTE_W (some pa) k1 ∧
      k' = { k1 with phys := s' } ∧ Touched own k' k [i] held held ∧
      s'.freelist = k1.phys.freelist ∧
      SameLeaves s' k1.phys (k.proc i).pagetable ∧
      Written s' k1.phys (k.proc i).pagetable (own i (k.proc i).sz) va [b]

section

variable (h : Acts own held k i)
include h

theorem userStore_spec {b : UInt8} (hfull : (k.proc i).hasRegion = true →
      ∀ vpn, vpn < TFVPN → own i (k.proc i).sz vpn = true) :
    (userStore i va b).Holds k (StorePost own held k i va b)
      (fun message => message = "init exiting" ∧ i = k.initproc ∧
        (Blocked k i va PTE_W ∨ k.phys.freelist.length < 3)) := by
  have hmax : MAXVA = 2 ^ 38 := rfl
  rw [userStore, holds_bind]
  refine (userAccess_spec h (by decide) (by decide) hfull).imp ?_
  intro r k1 hpost
  cases r with
  | none =>
    rw [holds_pure]
    exact Or.inl ⟨rfl, hpost⟩
  | some pa =>
    rw [holds_bind, holds_onPhys, holds_update, holds_pure]
    have hacts := AccessOk.acts h hpost.2.2 hpost.1
    obtain ⟨s1, faults, pte, hk1, hva, hpa, hpte, huser, _, _⟩ := hpost.2.2
    have hphys : k1.phys = s1 := by rw [hk1]; rfl
    have hproc : k1.proc i = { k.proc i with pageFaults := faults } := by
      rw [hk1]
      exact update_self _ _ _
    have htable : (k1.proc i).pagetable = (k.proc i).pagetable := by rw [hproc]
    have hsz : (k1.proc i).sz = (k.proc i).sz := by rw [hproc]
    have hpte1 : leafPte k1.phys.mem (k1.proc i).pagetable (va / 4096) = some pte := by
      rw [hphys, htable]
      exact hpte
    have hfit : va % 4096 + [b].length ≤ 4096 := by
      rw [length_singleton]
      omega
    obtain ⟨hmoved, hleaves, hwritten⟩ :=
      written_store hacts.userEnv (by omega) hpte1 huser hfit rfl
    rw [← hpa] at hmoved hleaves hwritten
    have hself : ({ k1 with
        phys := { k1.phys with mem := k1.phys.mem.storeBytes pa [b] } } : Kernel) =
        putSlot k1 i { k1.phys with mem := k1.phys.mem.storeBytes pa [b] } (k1.proc i) := by
      rw [putSlot, update_eq_self]
    have htouched := hacts.touched hmoved (fun vpn _ hlt => hleaves vpn (by omega))
      (hacts.live.kept hacts.used) rfl
    rw [← hself] at htouched
    rw [htable] at hleaves hwritten
    rw [hsz] at hwritten
    refine Or.inr ⟨pa, k1, _, rfl, hpost, rfl, (htouched.trans hpost.1).mono ?_, rfl,
      hleaves, hwritten⟩
    exact append_subset.2 ⟨List.Subset.refl _, List.Subset.refl _⟩

/-- A kernel access to the memory of the running process. -/
theorem Acts.faulted {lo hi : Nat}
    (hmoved : Moved s' k.phys (k.proc i).pagetable (own i (k.proc i).sz)
      ((k.proc i).trapframe :: held) ((k.proc i).trapframe :: held))
    (hleaf : Faulted s' k.phys (k.proc i).pagetable (k.proc i).sz lo hi) :
    Touched own { k with phys := s' } k [i] held held := by
  have hself : ({ k with phys := s' } : Kernel) = putSlot k i s' (k.proc i) := by
    rw [putSlot, update_eq_self]
  rw [hself]
  refine h.touched hmoved ?_ (h.live.kept h.used) rfl
  intro vpn hlo hlt
  rcases hleaf.leaf vpn (by omega) with hsame | ⟨_, hlow, _⟩
  · exact hsame
  · have := h.small
    omega

theorem Acts.copyout {dst : Nat} {src : List UInt8} :
    (onPhys (copyout (k.proc i).sz (k.proc i).pagetable (k.proc i).pagetable dst src)).Holds k
      (fun r k' => ∃ s', k' = { k with phys := s' } ∧ Touched own k' k [i] held held ∧
        CopyoutPost k.phys (k.proc i).pagetable (own i (k.proc i).sz)
          ((k.proc i).trapframe :: held) (k.proc i).sz dst src r s') (fun _ => False) := by
  rw [holds_onPhys]
  exact (copyout_spec h.userEnv).imp fun r s' hpost =>
    ⟨s', rfl, h.faulted hpost.1 hpost.2.1, hpost⟩

theorem Acts.copyin {src len : Nat} :
    (onPhys (copyin (k.proc i).sz (k.proc i).pagetable (k.proc i).pagetable src len)).Holds k
      (fun r k' => ∃ s', k' = { k with phys := s' } ∧ Touched own k' k [i] held held ∧
        CopyinPost k.phys (k.proc i).pagetable (own i (k.proc i).sz)
          ((k.proc i).trapframe :: held) (k.proc i).sz src len r s') (fun _ => False) := by
  rw [holds_onPhys]
  exact (copyin_spec h.userEnv).imp fun r s' hpost =>
    ⟨s', rfl, h.faulted hpost.1 hpost.2.1, hpost⟩

end

/-- The page that `map_ro` maps: the message and zeros after it. -/
def roPage : Fin 4096 → UInt8 := fun off => roMessage.getD off 0

theorem pageBytes_ro (m : ByteMem) (pa : Nat) :
    pageBytes ((((m.fill pa 5 4096).fill pa 0 4096)).storeBytes pa roMessage) pa = roPage := by
  funext off
  have hsub : pa + off.val - pa = off.val := by omega
  rw [pageBytes, ByteMem.storeBytes_apply, hsub, roPage]
  by_cases hlt : off.val < roMessage.length
  · rw [if_pos (by omega)]
  · rw [if_neg (by omega), ByteMem.fill_apply _ (by omega) (by omega),
      getD_eq_default _ _ (by omega)]

theorem ro_frame (m : ByteMem) (hpa : pa % 4096 = 0) :
    Frame ((((m.fill pa 5 4096).fill pa 0 4096)).storeBytes pa roMessage) m [pa] := by
  intro other hother hout
  have hne : other ≠ pa := by simpa using hout
  have hlen : roMessage.length = 21 := rfl
  have hstore : SamePage ((((m.fill pa 5 4096).fill pa 0 4096)).storeBytes pa roMessage)
      ((m.fill pa 5 4096).fill pa 0 4096) other := ByteMem.storeBytes_agreeOn _ (by omega)
  exact hstore.trans (fill_fill_frame m 5 0 hpa other hother hout)

/-- What `map_ro` does: a read-only page with the message, or nothing. -/
def MapRoPost (own : Policy) (held : List Nat) (k : Kernel) (i a0 : Nat) (r : Int)
    (k' : Kernel) : Prop :=
  a0 < MAXVA ∧ ∃ s', k' = { k with phys := s' } ∧ Touched own k' k [i] held held ∧
    ((r = -1 ∧ SameView s' k.phys (k.proc i).pagetable (own i (k.proc i).sz) ∧
        (leafPte k.phys.mem (k.proc i).pagetable (a0 / 4096) ≠ none ∨
          k.phys.freelist.length < 3)) ∨
      ∃ pa, r = 0 ∧ a0 / 4096 < TFVPN ∧
        leafPte k.phys.mem (k.proc i).pagetable (a0 / 4096) = none ∧
        Mapped s' k.phys (k.proc i).pagetable (own i (k.proc i).sz) (a0 / 4096)
          ⟨mkPte pa (PTE_R ||| PTE_U), some roPage⟩)

/-- `map_ro` panics exactly beyond the address space. -/
theorem sysMapRo_spec (h : Acts own held k i)
    (hfull : ∀ vpn, vpn < TFVPN → own i (k.proc i).sz vpn = true) :
    (sysMapRo i a0).Holds k (MapRoPost own held k i a0)
      (fun message => message = "walk" ∧ MAXVA ≤ a0) := by
  have htfvpn : TFVPN = 2 ^ 26 - 2 := rfl
  have hmax : MAXVA = 2 ^ 38 := rfl
  have hdown : PGROUNDDOWN a0 = a0 / 4096 * 4096 := rfl
  have hvpn : PGROUNDDOWN a0 / 4096 = a0 / 4096 := by omega
  have hself : ∀ s', ({ k with phys := s' } : Kernel) = putSlot k i s' (k.proc i) := by
    intro s'
    rw [putSlot, update_eq_self]
  have hkept := h.live.kept h.used
  -- a call that changes no mapping
  have hsame : ∀ s', Moved s' k.phys (k.proc i).pagetable (own i (k.proc i).sz)
        ((k.proc i).trapframe :: held) ((k.proc i).trapframe :: held) →
      SameView s' k.phys (k.proc i).pagetable (own i (k.proc i).sz) →
      a0 < MAXVA → (leafPte k.phys.mem (k.proc i).pagetable (a0 / 4096) ≠ none ∨
        k.phys.freelist.length < 3) → MapRoPost own held k i a0 (-1) { k with phys := s' } := by
    intro s' hmoved hview hlt hwhy
    refine ⟨hlt, s', rfl, ?_, Or.inl ⟨rfl, hview, hwhy⟩⟩
    rw [hself]
    exact h.touched hmoved (fun vpn _ hlt => hview.leaves vpn (by omega)) hkept rfl
  rw [sysMapRo, holds_bind, holds_getProc, holds_bind, holds_onPhys]
  by_cases hhigh : PGROUNDDOWN a0 ≥ MAXVA
  · rw [ismapped, holds_bind, walk, if_pos hhigh, holds_panic]
    exact ⟨rfl, by omega⟩
  have hva : PGROUNDDOWN a0 < MAXVA := by omega
  have ha0 : a0 < MAXVA := by omega
  rw [holds_ismapped hva, hvpn]
  cases hleaf : leafPte k.phys.mem (k.proc i).pagetable (a0 / 4096) with
  | some pte =>
    rw [isSome_some, if_pos rfl, holds_pure]
    exact hsame k.phys (Moved.refl h.sep.inv) (SameView.refl _) ha0 (Or.inl (by rw [hleaf]; simp))
  | none =>
    rw [isSome_none, if_neg Bool.false_ne_true, holds_bind, holds_onPhys, holds_kalloc]
    constructor
    · intro hnil
      rw [holds_pure]
      exact hsame k.phys (Moved.refl h.sep.inv) (SameView.refl _) ha0
        (Or.inr (by rw [hnil]; exact Nat.zero_lt_succ 2))
    · intro pa rest hfree
      -- the two fixed pages are mapped, so the page lies below them
      have hlow : a0 / 4096 < TFVPN := by
        by_contra hge
        obtain heq | heq : a0 / 4096 = TFVPN ∨ a0 / 4096 = TFVPN + 1 := by omega
        · rw [heq, h.live.framed.trapframe] at hleaf
          exact absurd hleaf (by simp)
        · rw [heq, h.live.framed.trampoline] at hleaf
          exact absurd hleaf (by simp)
      have hpa : pa ∈ k.phys.freelist := hfree ▸ mem_cons_self
      have hkeep : own i (k.proc i).sz (PGROUNDDOWN a0 / 4096) = true := hfull _ (by omega)
      simp only [holds_bind, holds_onPhys, memset, holds_update]
      have hperm : PTE_R ||| PTE_U < 1024 := by decide
      have hrun := mappages_fresh h.sep hfree (ro_frame k.phys.mem (h.sep.inv.free_heap hpa).1) hva
        (PGROUNDDOWN_mod a0) hperm (by decide) hkeep
      rw [pageBytes_ro] at hrun
      refine hrun.mono ?_ ?_
      · rintro r s1 ⟨_, ⟨hr, hmoved, hmapped, _⟩ | ⟨hr, hmoved, hview, hfew⟩⟩
        · rw [hr, if_neg (by decide), holds_pure]
          rw [hvpn] at hmapped
          refine ⟨ha0, s1, rfl, ?_, Or.inr ⟨pa, rfl, hlow, hleaf, hmapped⟩⟩
          rw [hself]
          refine h.touched hmoved ?_ hkept rfl
          intro vpn hlo hlt
          rw [leafPte_eq_view _ _ (own i (k.proc i).sz), hmapped _ (by omega),
            if_neg (by omega), ← leafPte_eq_view]
        · rw [hr, if_pos (by decide), holds_bind, holds_onPhys]
          refine (kfree_held (hmoved.sep h.sep)).mono ?_ (by rintro _ ⟨⟩)
          rintro _ s2 ⟨hgiven, hview'⟩
          rw [holds_pure]
          exact hsame s2 (hgiven.trans hmoved) (hview'.trans hview) ha0 (Or.inr (by omega))
      · rintro message ⟨_, hmapped⟩
        rw [hvpn, hleaf] at hmapped
        exact absurd hmapped (by simp)

end EAFITos
