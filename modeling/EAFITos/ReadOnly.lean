/-
The pages of `map_ro`: as long as they are mapped they stay read-only and keep their bytes, in
the process that called it and in its descendants, and every attempt to write them is refused.
-/
import EAFITos.Faults
import EAFITos.Heap

namespace EAFITos

open Prog Option

variable {pte vpn : Nat}

variable {m : ByteMem} {root va : Nat} {keep : Nat → Bool}

section ReadOnly

variable {s s' : Phys} {p p' : Proc} {k k' : Kernel} {held : List Nat} {i j : Nat} {c : Call}
  {origin : Nat → Nat → Origin}

/-- The flags of a page of `map_ro`. -/
def roFlags : Nat := PTE_V ||| PTE_R ||| PTE_U

/-- Every page of `map_ro` is read-only and has the message on it. -/
def RoIntact (s : Phys) (p : Proc) (origin : Nat → Origin) : Prop :=
  ∀ vpn pte, vpn < TFVPN → leafPte s.mem p.pagetable vpn = some pte → origin vpn = .readOnly →
    PTE_FLAGS pte = roFlags ∧ pageBytes s.mem (PTE2PA pte) = roPage

theorem not_writable (h : PTE_FLAGS pte = roFlags) : hasFlag pte PTE_W = false := by
  rw [← hasFlag_flags _ _ (by decide), h]
  decide

/-- A page that is not writable is what it was when the process goes on. -/
theorem Lives.samePage (h : Lives s p s' p') (hvpn : vpn < TFVPN)
    (hpte : leafPte s.mem p.pagetable vpn = some pte) (hwrite : hasFlag pte PTE_W = false) :
    leafPte s'.mem p.pagetable vpn = some pte ∧ SamePage s'.mem s.mem (PTE2PA pte) := by
  have hpte' : leafPte s'.mem p.pagetable vpn = some pte := by
    rcases h.leaves vpn hvpn with hsame | ⟨hnone, -⟩
    · exact hsame.trans hpte
    · rw [hpte] at hnone
      cases hnone
  refine ⟨hpte', UserMemory.user_same hpte hpte' fun b hb => ?_⟩
  by_contra hne
  subst hb
  rw [(h.bytes b pte hvpn hpte hne).2] at hwrite
  cases hwrite

theorem pageBytes_of_view {bytes : Fin 4096 → UInt8}
    (hview : view m root keep vpn = some ⟨pte, some bytes⟩) :
    leafPte m root vpn = some pte ∧ pageBytes m (PTE2PA pte) = bytes := by
  rw [view, map_eq_some_iff] at hview
  obtain ⟨pte', hpte', hmapping⟩ := hview
  rw [Mapping.mk.injEq] at hmapping
  obtain ⟨rfl, hbytes⟩ := hmapping
  split at hbytes
  · exact ⟨hpte', some.inj hbytes⟩
  · cases hbytes

theorem view_of_leaf (hpte : leafPte m root vpn = some pte) (hkeep : keep vpn = true) :
    view m root keep vpn = some ⟨pte, some (pageBytes m (PTE2PA pte))⟩ := by
  rw [view, hpte, map_some, if_pos hkeep]

theorem SlotStep.roIntact (h : SlotStep k i c k' j) (hi : (k.proc i).state ≠ .UNUSED)
    (hself : RoIntact k.phys (k.proc i) (origin i))
    (hj : (k.proc j).state ≠ .UNUSED → RoIntact k.phys (k.proc j) (origin j)) :
    RoIntact k'.phys (k'.proc j) (origins k origin (i, c) k' j) := by
  have htf : TFVPN = 2 ^ 26 - 2 := rfl
  intro vpn pte hvpn hpte' horigin
  cases h with
  | lives used lives still =>
    rw [lives.table] at hpte'
    cases hpte : leafPte k.phys.mem (k.proc j).pagetable vpn with
    | some pte0 =>
      rw [origins_mapped used lives.table hpte] at horigin
      obtain ⟨hflags, hbytes⟩ := hj used vpn pte0 hvpn hpte horigin
      obtain ⟨hsame, hpage⟩ := lives.samePage hvpn hpte (not_writable hflags)
      obtain rfl : pte0 = pte := some.inj (hsame.symm.trans hpte')
      exact ⟨hflags, (pageBytes_congr hpage).trans hbytes⟩
    | none =>
      have hc : ∀ va, c ≠ .mapRo va := by
        rintro va rfl
        rw [still va rfl vpn hvpn, hpte] at hpte'
        cases hpte'
      rw [origins_new used lives.table hpte hc] at horigin
      split at horigin <;> cases horigin
  | sbrk n sz' call slot size proc unmapped =>
    subst slot
    rw [proc] at hpte'
    have hview := unmapped vpn (by omega)
    by_cases hin : pgup sz' ≤ vpn ∧ vpn < pgup sz' + (pgup (k.proc j).sz - pgup sz')
    · rw [unmapped.leaf_in (by omega) hin] at hpte'
      cases hpte'
    · have hpte : leafPte k.phys.mem (k.proc j).pagetable vpn = some pte := by
        rw [← unmapped.leaf_other (by omega) hin]
        exact hpte'
      rw [if_neg hin, view_of_leaf hpte (userVpn_iff.mpr hvpn)] at hview
      rw [origins_mapped hi (by rw [proc]) hpte] at horigin
      obtain ⟨hflags, hbytes⟩ := hj hi vpn pte hvpn hpte horigin
      exact ⟨hflags, (pageBytes_of_view hview).2.trans hbytes⟩
  | mapzero size len call slot fresh hsize proc phys =>
    subst slot
    rw [proc, phys] at hpte'
    rw [phys]
    rw [origins_mapped hi (by rw [proc]) hpte'] at horigin
    exact hj hi vpn pte hvpn hpte' horigin
  | mapRo va pa call slot proc low fresh mapped =>
    subst slot
    rw [proc] at hpte'
    have hview := mapped vpn (by omega)
    by_cases heq : vpn = va / 4096
    · rw [if_pos heq] at hview
      obtain ⟨hpte, hbytes⟩ := pageBytes_of_view hview
      obtain rfl : mkPte pa (PTE_R ||| PTE_U) = pte := some.inj (hpte.symm.trans hpte')
      refine ⟨?_, hbytes⟩
      rw [PTE_FLAGS_mkPte (by decide)]
      decide
    · rw [if_neg heq] at hview
      have hpte : leafPte k.phys.mem (k.proc j).pagetable vpn = some pte := by
        rw [leafPte_eq_view _ _ userVpn, ← hview, ← leafPte_eq_view]
        exact hpte'
      rw [view_of_leaf hpte (userVpn_iff.mpr hvpn)] at hview
      rw [origins_mapped hi (by rw [proc]) hpte] at horigin
      obtain ⟨hflags, hbytes⟩ := hj hi vpn pte hvpn hpte horigin
      exact ⟨hflags, (pageBytes_of_view hview).2.trans hbytes⟩
  | fork call unused extent child =>
    rw [origins_unused unused] at horigin
    by_cases hlow : vpn < pgup (k.proc i).sz
    · cases hpte : leafPte k.phys.mem (k.proc i).pagetable vpn with
      | none =>
        rw [child.empty vpn hvpn (Or.inr hpte)] at hpte'
        cases hpte'
      | some pte0 =>
        obtain ⟨pa, hview⟩ := child.copied vpn pte0 hlow hpte
        obtain ⟨hcopy, hcopied⟩ := pageBytes_of_view hview
        obtain ⟨hflags, hbytes⟩ := hself vpn pte0 hvpn hpte horigin
        obtain rfl : mkPte pa (PTE_FLAGS pte0) = pte := some.inj (hcopy.symm.trans hpte')
        refine ⟨?_, hcopied.trans hbytes⟩
        rw [hflags, PTE_FLAGS_mkPte (by decide)]
        decide
    · rw [child.empty vpn hvpn (Or.inl (by omega))] at hpte'
      cases hpte'
  | exec namei upath uargv root img call slot proc shows small fresh =>
    subst slot
    have hheap : origins k origin (j, c) k' j vpn = .heap := by
      rw [origins, if_neg hi, if_pos (by rw [proc]; exact fresh)]
    rw [hheap] at horigin
    cases horigin

theorem Traced.roIntact (h : Traced (k, origin)) (hj : j < NPROC)
    (hused : (k.proc j).state ≠ .UNUSED) : RoIntact k.phys (k.proc j) (origin j) := by
  refine (Traced.invariant (P := RoIntact) ?_ ?_ h).2 j hj hused
  · intro k _ vpn pte _ _ horigin
    cases horigin
  · intro k k' held i j c origin hacts hj hall hstep
    exact hstep.roIntact hacts.used (hall i hacts.slot hacts.used) (hall j hj)

/-! ## Attempts to write -/

/-- The page `vpn` is mapped by `pte` with the bytes it has. -/
def SameMapping (k' k : Kernel) (root vpn pte : Nat) : Prop :=
  leafPte k'.phys.mem root vpn = some pte ∧ SamePage k'.phys.mem k.phys.mem (PTE2PA pte)

/-- A store by the user, a fault on the page and a `copyout` that reaches it are refused. -/
structure WriteRefused (k : Kernel) (i vpn pte : Nat) : Prop where
  store : ∀ va b, va / 4096 = vpn → (userStore i va b).Holds k
    (fun r k' => r = false ∧ (k'.proc i).state = .ZOMBIE ∧
      SameMapping k' k (k.proc i).pagetable vpn pte)
    (fun message => message = "init exiting" ∧ i = k.initproc)
  fault : ∀ va, va / 4096 = vpn → (handleFault i va).Holds k
    (fun _ k' => FaultRefused k i k') (fun _ => False)
  copyout : ∀ dst bytes, vpn ∈ pagesOf dst bytes.length → (copyoutTo i dst bytes).Holds k
    (fun r k' => r = -1 ∧ SameMapping k' k (k.proc i).pagetable vpn pte) (fun _ => False)

theorem blocked_of_readOnly (hwrite : hasFlag pte PTE_W = false)
    (hpte : leafPte k.phys.mem (k.proc i).pagetable (va / 4096) = some pte) :
    Blocked k i va PTE_W := by
  refine ⟨?_, Or.inr (by rw [hpte]; simp)⟩
  by_contra htrans
  obtain ⟨pa, hpa⟩ := ne_none_iff_exists'.mp htrans
  obtain ⟨-, pte', hpte', -, hwrite', -⟩ := leaf_of_translate hpa
  obtain rfl : pte = pte' := some.inj (hpte.symm.trans hpte')
  rw [hwrite] at hwrite'
  cases hwrite'

theorem exitKernel_zombie {status : Int} : ((exitKernel k i status).proc i).state = .ZOMBIE := by
  have hself : (exitKernel k i status).proc i =
      { reparented k i i with xstate := status, state := .ZOMBIE } := Function.update_self _ _ _
  rw [hself]

theorem Acts.store_refused (h : Acts fullOwn held k i) (hva : va / 4096 < TFVPN)
    (hwrite : hasFlag pte PTE_W = false)
    (hpte : leafPte k.phys.mem (k.proc i).pagetable (va / 4096) = some pte) (b : UInt8) :
    (userStore i va b).Holds k (fun r k' => r = false ∧ (k'.proc i).state = .ZOMBIE ∧
        SameMapping k' k (k.proc i).pagetable (va / 4096) pte)
      (fun message => message = "init exiting" ∧ i = k.initproc) := by
  refine (userStore_spec h fun _ => fun vpn => fullOwn_iff.mpr).mono ?_
    fun message hpanic => ⟨hpanic.1, hpanic.2.1⟩
  intro r k' hpost
  have hlives := hpost.lives
  rcases hpost with ⟨hr, -, -, -, s', -, hk'⟩ | ⟨pa, k1, s', -, ⟨-, -, hok⟩, -⟩
  · refine ⟨hr, ?_, hlives.samePage hva hpte hwrite⟩
    rw [hk']
    exact exitKernel_zombie
  · exact absurd (blocked_of_readOnly hwrite hpte) hok.not_blocked

theorem UserMemory.copyout_refused (h : UserMemory k.phys (k.proc i)) (hvpn : vpn < TFVPN)
    (hwrite : hasFlag pte PTE_W = false)
    (hpte : leafPte k.phys.mem (k.proc i).pagetable vpn = some pte) {dst : Nat}
    {bytes : List UInt8} (hin : vpn ∈ pagesOf dst bytes.length) :
    (copyoutTo i dst bytes).Holds k
      (fun r k' => r = -1 ∧ SameMapping k' k (k.proc i).pagetable vpn pte) (fun _ => False) := by
  have htf : TFVPN = 2 ^ 26 - 2 := rfl
  rw [copyoutTo, holds_bind, holds_getProc, holds_onPhys]
  refine (h.copyout_exact dst bytes).imp ?_
  rintro r s' ⟨hr, hiff, -, hspared⟩
  refine ⟨hr.resolve_left fun hzero => ?_, hspared vpn pte (by omega) hpte ?_⟩
  · have hcan := ((hiff.mp hzero).touch vpn hin).mapped pte hpte
    rw [hwrite] at hcan
    cases hcan.2
  · rw [hwrite, Bool.false_and]

theorem Sound.writeRefused (h : Sound held k) (hi : i < NPROC)
    (hrun : (k.proc i).state = .RUNNABLE) (hvpn : vpn < TFVPN)
    (hpte : leafPte k.phys.mem (k.proc i).pagetable vpn = some pte)
    (hwrite : hasFlag pte PTE_W = false) : WriteRefused k i vpn pte := by
  have hmemory := h.userMemory hi (by rw [hrun]; decide)
  refine ⟨fun va b hva => ?_, fun va hva => ?_, fun dst bytes hin =>
    hmemory.copyout_refused hvpn hwrite hpte hin⟩
  · subst hva
    exact (h.inv.acts hi hrun).store_refused hvpn hwrite hpte b
  · refine (handleFault_exact hmemory.faultEnv).imp fun _ k' hfault => ?_
    rcases hfault.cases hmemory with ⟨pte', hserved⟩ | hrefused
    · have hfresh := hserved.fresh
      rw [hva, hpte] at hfresh
      cases hfresh
    · exact hrefused

theorem Acts.mapRo_traced (h : Acts fullOwn held k i) (origin : Nat → Nat → Origin) (va : Nat) :
    (sysMapRo i va).Holds k
      (fun r k' => r = 0 → leafPte k'.phys.mem (k'.proc i).pagetable (va / 4096) ≠ none ∧
        origins k origin (i, .mapRo va) k' i (va / 4096) = .readOnly)
      (fun message => message = "walk" ∧ MAXVA ≤ va) := by
  have htf : TFVPN = 2 ^ 26 - 2 := rfl
  refine (sysMapRo_spec h fun vpn => fullOwn_iff.mpr).imp ?_
  rintro r k' ⟨-, s', rfl, -, ⟨rfl, -⟩ | ⟨pa, -, hlow, hnone, hmapped⟩⟩ hr
  · cases hr
  · refine ⟨?_, ?_⟩
    · have hleaf := leafPte_mapped hmapped (va / 4096) (by omega)
      rw [if_pos rfl] at hleaf
      exact fun hno => absurd (hleaf.symm.trans hno) (by simp)
    · rw [origins, if_neg h.used, if_neg (by simp), if_neg (not_not.mpr hnone)]

/-- The pages of `map_ro` are immutable, in every run without `shmem`. -/
theorem map_ro_pages_immutable (h : Traced (k, origin)) (hi : i < NPROC)
    (hused : (k.proc i).state ≠ .UNUSED) :
    (∀ vpn pte, vpn < TFVPN → leafPte k.phys.mem (k.proc i).pagetable vpn = some pte →
      origin i vpn = .readOnly →
        PTE_FLAGS pte = roFlags ∧ pageBytes k.phys.mem (PTE2PA pte) = roPage ∧
          ((k.proc i).state = .RUNNABLE → WriteRefused k i vpn pte)) ∧
    ((k.proc i).state = .RUNNABLE → ∀ va, (sysMapRo i va).Holds k
      (fun r k' => r = 0 → leafPte k'.phys.mem (k'.proc i).pagetable (va / 4096) ≠ none ∧
        origins k origin (i, .mapRo va) k' i (va / 4096) = .readOnly)
      (fun message => message = "walk" ∧ MAXVA ≤ va)) := by
  obtain ⟨held, hsound⟩ := h.sound
  refine ⟨fun vpn pte hvpn hpte horigin => ?_, fun hrun va =>
    (hsound.inv.acts hi hrun).mapRo_traced origin va⟩
  obtain ⟨hflags, hbytes⟩ := h.roIntact hi hused vpn pte hvpn hpte horigin
  exact ⟨hflags, hbytes, fun hrun => hsound.writeRefused hi hrun hvpn hpte (not_writable hflags)⟩

theorem map_ro_pages_immutable_small : ∃ k origin pte, Traced (k, origin) ∧
    leafPte k.phys.mem (k.proc 0).pagetable 0x80000 = some pte ∧ origin 0 0x80000 = .readOnly ∧
    PTE_FLAGS pte = roFlags ∧ WriteRefused k 0 0x80000 pte := by
  obtain ⟨k, hk⟩ := small_boots
  have hacts := hk.acts
  have htraced : Traced (k, fun _ _ => .heap) := .start ⟨hk.booted, rfl⟩
  have hnone : leafPte k.phys.mem (k.proc 0).pagetable 0x80000 = none := by
    obtain ⟨img, hsz, hshows⟩ := hk.booted.started.image
    rw [hk.initproc] at hsz hshows
    rw [hk.sz] at hsz
    refine hshows.empty 0x80000 ?_ (by decide)
    rw [← hsz]
    decide
  have hrun := (sysMapRo_spec hacts fun vpn => fullOwn_iff.mpr).and
    (hacts.mapRo_traced (fun _ _ => .heap) 0x80000000)
  have hpanic : (sysMapRo 0 0x80000000).Holds k _ fun _ => False :=
    hrun.mono (fun _ _ hpost => hpost) fun _ hbad => absurd hbad.1.2 (by decide)
  obtain ⟨r, k', hnext, ⟨-, s', rfl, -, hcases⟩, hmapped⟩ :=
    Kernel.next_of_holds (c := .mapRo 0x80000000) rfl (by decide) hk.running hpanic
  have hr : r = 0 := by
    rcases hcases with ⟨-, -, hleaf | hfew⟩ | ⟨-, hr, -⟩
    · exact absurd hnone hleaf
    · have hfree := hk.free
      omega
    · exact hr
  obtain ⟨hleaf, horigin⟩ := hmapped hr
  obtain ⟨pte, hpte⟩ := Option.ne_none_iff_exists'.mp hleaf
  have hpair : Machine.withHistory Kernel.next origins (k, fun _ _ => .heap)
      (0, .mapRo 0x80000000) = some ({ k with phys := s' },
        origins k (fun _ _ => .heap) (0, .mapRo 0x80000000) { k with phys := s' }) :=
    Machine.withHistory_eq_some.mpr ⟨hnext, rfl⟩
  have htraced' := htraced.step rfl hpair
  obtain ⟨hflags, -, hrefused⟩ := (map_ro_pages_immutable htraced' (by decide)
    (by rw [hk.running]; decide)).1 0x80000 pte (by decide) hpte horigin
  exact ⟨_, _, pte, htraced', hpte, horigin, hflags, hrefused hk.running⟩

end ReadOnly

end EAFITos
