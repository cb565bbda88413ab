/-
Where the pages of a process come from: its image and its heap, the region of `mapzero`, or
`map_ro`.  The law of `sbrk` for a process that has nothing but its heap.
-/
import EAFITos.SlotStep

namespace EAFITos

/-- What a page of a process was mapped for. -/
inductive Origin where
  | heap
  | region
  | readOnly
  deriving DecidableEq, Repr

instance (p : Proc) (vpn : Nat) : Decidable (RegionVpn p vpn) :=
  inferInstanceAs (Decidable (p.hasRegion = true ∧ p.region.start / 4096 ≤ vpn ∧
    vpn < p.region.start / 4096 + p.region.size / 4096))

/-- The origins of pages after the step `e` from `k` to `k'`: a forked child has copies of the
pages of its parent, and a page table that is new has an image in it. -/
def origins (k : Kernel) (origin : Nat → Nat → Origin) (e : Nat × Call) (k' : Kernel) :
    Nat → Nat → Origin := fun j vpn =>
  if (k.proc j).state = .UNUSED then origin e.1 vpn
  else if (k'.proc j).pagetable ≠ (k.proc j).pagetable then .heap
  else if leafPte k.phys.mem (k.proc j).pagetable vpn ≠ none then origin j vpn
  else
    match e.2 with
    | .mapRo _ => .readOnly
    | _ => if RegionVpn (k.proc j) vpn then .region else .heap

/-- The states of runs without `shmem`, with the origins of the pages. -/
def Traced : Kernel × (Nat → Nat → Origin) → Prop :=
  Machine.Reach (Machine.withHistory Kernel.next origins) (fun _ e => e.2.isShmem = false)
    fun t => Booted t.1 ∧ t.2 = fun _ _ => .heap

section Origins

variable {k k' : Kernel} {held : List Nat} {i j : Nat} {c : Call}
  {origin : Nat → Nat → Origin}

theorem origins_unused (h : (k.proc j).state = .UNUSED) (vpn : Nat) :
    origins k origin (i, c) k' j vpn = origin i vpn := if_pos h

section

variable (h : (k.proc j).state ≠ .UNUSED) (htable : (k'.proc j).pagetable = (k.proc j).pagetable)
include h htable

theorem origins_mapped {vpn pte : Nat}
    (hpte : leafPte k.phys.mem (k.proc j).pagetable vpn = some pte) :
    origins k origin (i, c) k' j vpn = origin j vpn := by
  rw [origins, if_neg h, if_neg (not_not.mpr htable), if_pos (by rw [hpte]; simp)]

theorem origins_new {vpn : Nat} (hnone : leafPte k.phys.mem (k.proc j).pagetable vpn = none)
    (hc : ∀ va, c ≠ .mapRo va) :
    origins k origin (i, c) k' j vpn = if RegionVpn (k.proc j) vpn then .region else .heap := by
  rw [origins, if_neg h, if_neg (not_not.mpr htable), if_neg (not_not.mpr hnone)]
  dsimp only
  split
  · next va => exact absurd rfl (hc va)
  · rfl

end

/-- A page that a fault materialises beyond the heap lies in the region. -/
theorem regionVpn_of_faultByte {p : Proc} (hregion : RegionOk p) {va : Nat}
    (hbyte : faultByte p va ≠ none) (hhigh : pgup p.sz ≤ va / 4096) : RegionVpn p (va / 4096) := by
  rw [pgup] at hhigh
  rw [faultByte, if_neg (c := va < p.sz) (by omega)] at hbyte
  have hin : inRegion p va = true := by
    by_contra hout
    rw [if_neg hout] at hbyte
    exact hbyte rfl
  obtain ⟨hhas, hlo, hhi⟩ := inRegion_iff.mp hin
  have hstart := hregion.start hhas
  have hsize := hregion.size hhas
  have hvalue : regionStart = 0x70000 * 4096 := rfl
  exact ⟨hhas, by omega, by omega⟩

/-- A page beyond the heap is not one of the heap. -/
def HeapBounded (s : Phys) (p : Proc) (origin : Nat → Origin) : Prop :=
  ∀ vpn, vpn < TFVPN → leafPte s.mem p.pagetable vpn ≠ none → origin vpn = .heap →
    vpn < pgup p.sz

theorem SlotStep.heapBounded (h : SlotStep k i c k' j) (hi : (k.proc i).state ≠ .UNUSED)
    (hlive : (k.proc j).state ≠ .UNUSED → Live k.phys (k.proc j))
    (hj : (k.proc j).state ≠ .UNUSED → HeapBounded k.phys (k.proc j) (origin j)) :
    HeapBounded k'.phys (k'.proc j) (origins k origin (i, c) k' j) := by
  have htf : TFVPN = 2 ^ 26 - 2 := rfl
  intro vpn hvpn hleaf horigin
  cases h with
  | lives used lives still =>
    rw [lives.table] at hleaf
    rw [lives.extent.sz]
    rcases lives.leaves vpn hvpn with hsame | ⟨hnone, ⟨va, rfl, hbyte⟩, hnew⟩
    · rw [hsame] at hleaf
      obtain ⟨pte, hpte⟩ := Option.ne_none_iff_exists'.mp hleaf
      rw [origins_mapped used lives.table hpte] at horigin
      exact hj used vpn hvpn hleaf horigin
    · have hc : ∀ va, c ≠ .mapRo va := by
        rintro va' rfl
        rw [still va' rfl _ hvpn, hnone] at hleaf
        exact hleaf rfl
      rw [origins_new used lives.table hnone hc] at horigin
      by_contra hhigh
      rw [if_pos (regionVpn_of_faultByte (hlive used).region hbyte (by omega))] at horigin
      cases horigin
  | sbrk n sz' call slot size proc unmapped =>
    subst slot
    rw [proc] at hleaf ⊢
    by_cases hin : pgup sz' ≤ vpn ∧ vpn < pgup sz' + (pgup (k.proc j).sz - pgup sz')
    · exact absurd (unmapped.leaf_in (by omega) hin) hleaf
    · rw [unmapped.leaf_other (by omega) hin] at hleaf
      obtain ⟨pte, hpte⟩ := Option.ne_none_iff_exists'.mp hleaf
      rw [origins_mapped hi (by rw [proc]) hpte] at horigin
      have hlow := hj hi vpn hvpn hleaf horigin
      dsimp only
      omega
  | mapzero size len call slot fresh hsize proc phys =>
    subst slot
    rw [proc] at hleaf ⊢
    rw [phys] at hleaf
    obtain ⟨pte, hpte⟩ := Option.ne_none_iff_exists'.mp hleaf
    rw [origins_mapped hi (by rw [proc]) hpte] at horigin
    exact hj hi vpn hvpn hleaf horigin
  | mapRo va pa call slot proc low fresh mapped =>
    subst slot
    rw [proc] at hleaf ⊢
    cases hpte : leafPte k.phys.mem (k.proc j).pagetable vpn with
    | some pte =>
      rw [origins_mapped hi (by rw [proc]) hpte] at horigin
      exact hj hi vpn hvpn (by rw [hpte]; simp) horigin
    | none =>
      have hreadOnly : origins k origin (j, c) k' j vpn = .readOnly := by
        rw [origins, if_neg hi, if_neg (by rw [proc]; simp), if_neg (by rw [hpte]; simp), call]
      rw [hreadOnly] at horigin
      cases horigin
  | fork call unused extent child =>
    rw [extent.sz]
    by_contra hhigh
    exact hleaf (child.empty vpn hvpn (Or.inl (by omega)))
  | exec namei upath uargv root img call slot proc shows small fresh =>
    subst slot
    rw [proc] at hleaf ⊢
    by_contra hhigh
    exact hleaf (shows.empty vpn (by dsimp only at hhigh; omega) hvpn)

/-- What holds of the process that is booted and is kept by each step for each process holds
throughout. -/
theorem Traced.invariant {P : Phys → Proc → (Nat → Origin) → Prop}
    (hstart : ∀ k, Started k → P k.phys (k.proc k.initproc) fun _ => .heap)
    (hstep : ∀ {k k' : Kernel} {held : List Nat} {i j : Nat} {c : Call}
      {origin : Nat → Nat → Origin}, Acts fullOwn held k i → j < NPROC →
      (∀ l, l < NPROC → (k.proc l).state ≠ .UNUSED → P k.phys (k.proc l) (origin l)) →
      SlotStep k i c k' j → P k'.phys (k'.proc j) (origins k origin (i, c) k' j))
    (h : Traced (k, origin)) :
    (∃ held, Sound held k) ∧
      ∀ j, j < NPROC → (k.proc j).state ≠ .UNUSED → P k.phys (k.proc j) (origin j) := by
  refine Machine.Reach.invariant (P := fun t => (∃ held, Sound held t.1) ∧
    ∀ j, j < NPROC → (t.1.proc j).state ≠ .UNUSED → P t.1.phys (t.1.proc j) (t.2 j)) ?_ ?_ h
  · rintro ⟨k, origin⟩ ⟨hbooted, horigin⟩
    dsimp only at hbooted horigin ⊢
    have hstarted := hbooted.started
    refine ⟨⟨[], hstarted.inv, hstarted.text, hstarted.refreed⟩, fun j hj hused => ?_⟩
    have hinit : j = k.initproc := by
      by_contra hne
      rw [hstarted.alone j hne] at hused
      exact hused rfl
    rw [hinit, horigin]
    exact hstart k hstarted
  · rintro ⟨k, origin⟩ ⟨i, c⟩ ⟨k', origin'⟩ ⟨⟨held, hsound⟩, hall⟩ hok hnext
    obtain ⟨hstep', horigin⟩ := Machine.withHistory_eq_some.mp hnext
    dsimp only at hstep' horigin hsound hall hok ⊢
    subst horigin
    obtain ⟨_, lost, _, hsound'⟩ := hsound.step (e := (i, c)) hok hstep'
    obtain ⟨hslot, hrun, hcall⟩ := Kernel.next_eq_some hstep'
    have hacts := hsound.inv.acts hslot hrun
    exact ⟨⟨_, hsound'⟩, fun j hj hused =>
      hstep hacts hj hall (((Call.run_effect hacts c hok).of_ok hcall).2 j hj hused)⟩

theorem Traced.sound (h : Traced (k, origin)) : ∃ held, Sound held k :=
  (Traced.invariant (P := fun _ _ _ => True) (fun _ _ => trivial)
    (fun _ _ _ _ => trivial) h).1

theorem Traced.heapBounded (h : Traced (k, origin)) (hj : j < NPROC)
    (hused : (k.proc j).state ≠ .UNUSED) : HeapBounded k.phys (k.proc j) (origin j) := by
  refine (Traced.invariant (P := HeapBounded) ?_ ?_ h).2 j hj hused
  · intro k hstarted vpn hvpn hleaf _
    obtain ⟨img, hsz, hshows⟩ := hstarted.image
    by_contra hhigh
    rw [hsz] at hhigh
    exact hleaf (hshows.empty vpn (by omega) hvpn)
  · intro k k' held i j c origin hacts hj hall hstep
    exact hstep.heapBounded hacts.used (hacts.inv.live j hj) (hall j hj)

/-! ## The law of `sbrk` -/

/-- A process has given back the pages beyond the size `sz'`. -/
structure Shrunk (k : Kernel) (i sz' : Nat) (k' : Kernel) : Prop where
  proc : k'.proc = Function.update k.proc i { k.proc i with sz := sz' }
  unmapped : ∀ vpn, pgup sz' ≤ vpn → vpn < TFVPN →
    leafPte k'.phys.mem (k.proc i).pagetable vpn = none
  freed : ∀ vpn pte, pgup sz' ≤ vpn → vpn < TFVPN →
    leafPte k.phys.mem (k.proc i).pagetable vpn = some pte → PTE2PA pte ∈ k'.phys.freelist
  kept : ∀ vpn, vpn < pgup sz' → leafPte k'.phys.mem (k.proc i).pagetable vpn =
    leafPte k.phys.mem (k.proc i).pagetable vpn
  bytes : ∀ a, a / 4096 < pgup sz' → byteAt k'.phys.mem (k.proc i).pagetable a =
    byteAt k.phys.mem (k.proc i).pagetable a

/-- What `sbrk(n)` does, for every `int`. -/
structure SbrkLaw (k : Kernel) (i : Nat) (n r : Int) (k' : Kernel) : Prop where
  grow : 0 ≤ n → (k.proc i).sz + n ≤ TRAPFRAME → r = (k.proc i).sz ∧
    k' = putSlot k i k.phys { k.proc i with sz := ((k.proc i).sz + n).toNat }
  fail : TRAPFRAME < (k.proc i).sz + n → r = -1 ∧ k' = k
  shrink : n < 0 → -n ≤ (k.proc i).sz → r = (k.proc i).sz ∧
    Shrunk k i ((k.proc i).sz + n).toNat k'
  excess : (k.proc i).sz < -n → r = (k.proc i).sz ∧ k' = k

theorem addInt_of_nonneg {a : Nat} {n : Int} (hlo : 0 ≤ (a : Int) + n)
    (hhi : (a : Int) + n < 2 ^ 64) : addInt a n = ((a : Int) + n).toNat := by
  rw [addInt, Int.emod_eq_of_lt hlo hhi]

/-- The new size: beyond the trapframe there is none, and below zero it stays what it was,
since the sum wraps around to a number above it. -/
theorem sbrkSize_eq {sz : Nat} {n : Int} (hsz : sz ≤ TRAPFRAME) (hlo : -2 ^ 31 ≤ n)
    (hhi : n < 2 ^ 31) : sbrkSize sz n =
      if (TRAPFRAME : Int) < sz + n then none
      else some (if (sz : Int) + n < 0 then sz else ((sz : Int) + n).toNat) := by
  have htf : TRAPFRAME = 2 ^ 38 - 8192 := rfl
  rw [sbrkSize]
  by_cases hneg : n < 0
  · rw [if_pos hneg, if_neg (by omega)]
    by_cases hwrap : (sz : Int) + n < 0
    · have hlarge : sz ≤ addInt sz n := by
        rw [addInt]
        omega
      rw [if_pos hwrap, Nat.min_eq_right hlarge]
    · rw [if_neg hwrap, addInt_of_nonneg (by omega) (by omega), Nat.min_eq_left (by omega)]
  · rw [if_neg hneg, addInt_of_nonneg (by omega) (by omega)]
    by_cases hfar : (TRAPFRAME : Int) < sz + n
    · rw [if_pos hfar, if_pos (by omega)]
    · rw [if_neg hfar, if_neg (by omega), if_neg (c := (sz : Int) + n < 0) (by omega)]

theorem sysSbrk_law (h : Acts fullOwn held k i)
    (hheap : ∀ vpn, vpn < TFVPN → leafPte k.phys.mem (k.proc i).pagetable vpn ≠ none →
      vpn < pgup (k.proc i).sz) (a0 : Nat) :
    (sysSbrk i a0).Holds k (SbrkLaw k i (argint a0)) (fun _ => False) := by
  have htf : TFVPN = 2 ^ 26 - 2 := rfl
  have hsmall := h.live.small
  have hlt := argint_lt a0
  have hge : -2 ^ 31 ≤ argint a0 := by
    rw [argint, wrap32]
    omega
  have hsize := sbrkSize_eq hsmall hge hlt
  have hput : putSlot k i k.phys { k.proc i with sz := (k.proc i).sz } = k :=
    putSlot_self k i k.phys
  refine (sysSbrk_spec h fun _ _ _ _ _ _ => rfl).imp ?_
  rintro r k' (⟨hnone, rfl, rfl⟩ | ⟨sz', s', hsome, rfl, rfl, -, hun, hfreed, hsame⟩)
  · rw [hnone] at hsize
    split at hsize
    · next hfar => exact ⟨by omega, fun _ => ⟨rfl, rfl⟩, by omega, by omega⟩
    · cases hsize
  · rw [hsome] at hsize
    split at hsize
    · cases hsize
    · next hnear =>
      rw [Option.some.injEq] at hsize
      split at hsize
      · next hneg =>
        rw [hsize, hsame (by omega), hput]
        exact ⟨by omega, by omega, by omega, fun _ => ⟨rfl, rfl⟩⟩
      · next hpos =>
        refine ⟨fun hn _ => ⟨rfl, ?_⟩, by omega, fun hn _ => ⟨rfl, ?_⟩, by omega⟩
        · rw [← hsize, hsame (by omega)]
        · rw [← hsize]
          have hle : pgup sz' ≤ pgup (k.proc i).sz := pgup_mono (by omega)
          have hfits : pgup (k.proc i).sz ≤ TFVPN := pgup_le hsmall
          refine ⟨rfl, fun vpn hlo hhi => ?_, fun vpn pte hlo hhi hpte => ?_, fun vpn hvpn => ?_,
            fun a ha => ?_⟩
          · by_cases hin : vpn < pgup (k.proc i).sz
            · exact hun.leaf_in (by omega) (by omega)
            · by_contra hleaf
              refine hin (hheap vpn hhi ?_)
              rw [← hun.leaf_other (by omega) (by omega)]
              exact hleaf
          · have hlow := hheap vpn hhi (by rw [hpte]; simp)
            exact hfreed.freed vpn pte hlo (by omega) hpte
          · exact hun.leaf_other (by omega) (by omega)
          · have hview := hun (a / 4096) (by omega)
            rw [if_neg (by omega)] at hview
            exact byteAt_congr (fullOwn_iff.mpr (by omega)) hview

/-- In every run without `shmem`, a process without pages of `mapzero` or `map_ro` has its
pages below its size, and `sbrk` obeys its law. -/
theorem sbrk_law (h : Traced (k, origin)) (hi : i < NPROC) (hused : (k.proc i).state ≠ .UNUSED)
    (hplain : ∀ vpn, vpn < TFVPN → leafPte k.phys.mem (k.proc i).pagetable vpn ≠ none →
      origin i vpn = .heap) :
    (∀ vpn, vpn < TFVPN → leafPte k.phys.mem (k.proc i).pagetable vpn ≠ none →
      vpn * 4096 < PGROUNDUP (k.proc i).sz) ∧ (k.proc i).sz ≤ TRAPFRAME ∧
    ((k.proc i).state = .RUNNABLE → ∀ a0,
      (sysSbrk i a0).Holds k (SbrkLaw k i (argint a0)) (fun _ => False)) := by
  have hbounded := h.heapBounded hi hused
  obtain ⟨held, hsound⟩ := h.sound
  have hlive := hsound.inv.live i hi hused
  have hheap : ∀ vpn, vpn < TFVPN → leafPte k.phys.mem (k.proc i).pagetable vpn ≠ none →
      vpn < pgup (k.proc i).sz :=
    fun vpn hvpn hleaf => hbounded vpn hvpn hleaf (hplain vpn hvpn hleaf)
  refine ⟨fun vpn hvpn hleaf => ?_, hlive.small, fun hrun a0 =>
    sysSbrk_law (hsound.inv.acts hi hrun) hheap a0⟩
  have hlow := hheap vpn hvpn hleaf
  rw [PGROUNDUP_eq (hlive.small.trans (by decide))]
  omega

theorem sbrk_law_small : ∃ k origin, Traced (k, origin) ∧ (k.proc 0).sz = 8192 ∧
    (sysSbrk 0 (2 ^ 32 - 4096)).Holds k (SbrkLaw k 0 (-4096)) (fun _ => False) := by
  obtain ⟨k, hk⟩ := small_boots
  have htraced : Traced (k, fun _ _ => .heap) := .start ⟨hk.booted, rfl⟩
  have hn : argint (2 ^ 32 - 4096) = -4096 := by decide
  refine ⟨k, _, htraced, hk.sz, ?_⟩
  rw [← hn]
  exact (sbrk_law htraced (by decide) (by rw [hk.running]; decide) fun _ _ _ => rfl).2.2 hk.running _

end Origins

end EAFITos
