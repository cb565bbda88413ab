/-
What one call does to the memory of every process: a process goes on with what it has, or the
call is its own and changes its layout, or it has just been forked.
-/
import EAFITos.System

namespace EAFITos

open Function List

variable {p p' : Proc} {s : Phys} {status : Int} {va : Nat}

/-- The size and the region of a process are those of another. -/
structure SameExtent (p' p : Proc) : Prop where
  sz : p'.sz = p.sz
  hasRegion : p'.hasRegion = p.hasRegion
  region : p'.region = p.region

theorem SameExtent.trans {p'' : Proc} (h' : SameExtent p'' p') (h : SameExtent p' p) :
    SameExtent p'' p := ⟨h'.sz.trans h.sz, h'.hasRegion.trans h.hasRegion, h'.region.trans h.region⟩

/-- The process goes on with the memory it has: pages that a fault would materialise may have
been, and bytes may have changed where the user can write. -/
structure Lives (s : Phys) (p : Proc) (s' : Phys) (p' : Proc) : Prop where
  table : p'.pagetable = p.pagetable
  extent : SameExtent p' p
  leaves : ∀ vpn, vpn < TFVPN →
    leafPte s'.mem p.pagetable vpn = leafPte s.mem p.pagetable vpn ∨
      (leafPte s.mem p.pagetable vpn = none ∧ (∃ va, va / 4096 = vpn ∧ faultByte p va ≠ none) ∧
        ∃ pa, leafPte s'.mem p.pagetable vpn = some (mkPte pa faultPerm))
  bytes : ∀ a pte, a / 4096 < TFVPN → leafPte s.mem p.pagetable (a / 4096) = some pte →
    byteAt s'.mem p.pagetable a ≠ byteAt s.mem p.pagetable a →
      hasFlag pte PTE_U = true ∧ hasFlag pte PTE_W = true

/-- What the call `c` of process `i` has done to the process in slot `j`, if there still is
one. -/
inductive SlotStep (k : Kernel) (i : Nat) (c : Call) (k' : Kernel) (j : Nat) : Prop
  | lives (used : (k.proc j).state ≠ .UNUSED)
      (lives : Lives k.phys (k.proc j) k'.phys (k'.proc j))
      (still : ∀ va, c = .mapRo va → ∀ vpn, vpn < TFVPN →
        leafPte k'.phys.mem (k.proc j).pagetable vpn = leafPte k.phys.mem (k.proc j).pagetable vpn)
  | sbrk (n sz' : Nat) (call : c = .sbrk n) (slot : j = i)
      (size : sbrkSize (k.proc i).sz (argint n) = some sz')
      (proc : k'.proc i = { k.proc i with sz := sz' })
      (unmapped : Unmapped k'.phys k.phys (k.proc i).pagetable userVpn (pgup sz')
        (pgup (k.proc i).sz - pgup sz'))
  | mapzero (size len : Nat) (call : c = .mapzero size) (slot : j = i)
      (fresh : (k.proc i).hasRegion = false) (size : regionSize (argint size) = some len)
      (proc : k'.proc i = { k.proc i with hasRegion := true, region := ⟨regionStart, len⟩ })
      (phys : k'.phys = k.phys)
  | mapRo (va pa : Nat) (call : c = .mapRo va) (slot : j = i) (proc : k'.proc i = k.proc i)
      (low : va / 4096 < TFVPN)
      (fresh : leafPte k.phys.mem (k.proc i).pagetable (va / 4096) = none)
      (mapped : Mapped k'.phys k.phys (k.proc i).pagetable userVpn (va / 4096)
        ⟨mkPte pa (PTE_R ||| PTE_U), some roPage⟩)
  | fork (call : c = .fork) (unused : (k.proc j).state = .UNUSED)
      (extent : SameExtent (k'.proc j) (k.proc i))
      (child : ChildOf k'.phys k.phys (k.proc i).pagetable (k'.proc j).pagetable userVpn
        (k.proc i).sz)
  | exec (namei : List UInt8 → Option (List UInt8)) (upath uargv root : Nat) (img : Image)
      (call : c = .exec namei upath uargv) (slot : j = i)
      (proc : k'.proc i = { k.proc i with pagetable := root, sz := img.sz })
      (shows : Shows k'.phys root img) (small : pgup img.sz ≤ 2 ^ 15)
      (fresh : root ≠ (k.proc i).pagetable)

section Slots

variable {k k' k1 : Kernel} {held held' : List Nat} {i j : Nat} {s' : Phys} {c : Call}

theorem Lives.refl (s : Phys) (p : Proc) : Lives s p s p :=
  ⟨rfl, ⟨rfl, rfl, rfl⟩, fun _ _ => Or.inl rfl, fun _ _ _ _ hne => absurd rfl hne⟩

theorem faultByte_congr (h : SameExtent p' p) (va : Nat) :
    faultByte p' va = faultByte p va := by
  rw [faultByte, faultByte, inRegion, inRegion, h.sz, h.hasRegion, h.region]

theorem Lives.trans {s1 s2 : Phys} {p1 p2 : Proc} (h' : Lives s1 p1 s2 p2) (h : Lives s p s1 p1) :
    Lives s p s2 p2 := by
  have htable := h.table
  refine ⟨h'.table.trans htable, h'.extent.trans h.extent, fun vpn hvpn => ?_,
    fun a pte ha hpte hne => ?_⟩
  · have hsecond := h'.leaves vpn hvpn
    rw [htable] at hsecond
    rcases hsecond with hsame | ⟨hnone, ⟨va, hva, hbyte⟩, hnew⟩
    · rw [hsame]
      exact h.leaves vpn hvpn
    · rw [faultByte_congr h.extent] at hbyte
      rcases h.leaves vpn hvpn with hsame | ⟨-, -, pa, hpa⟩
      · exact Or.inr ⟨hsame ▸ hnone, ⟨va, hva, hbyte⟩, hnew⟩
      · rw [hnone] at hpa
        cases hpa
  · by_cases hfirst : byteAt s1.mem p.pagetable a = byteAt s.mem p.pagetable a
    · have hpte1 : leafPte s1.mem p.pagetable (a / 4096) = some pte := by
        rcases h.leaves (a / 4096) ha with hsame | ⟨hnone, -⟩
        · exact hsame.trans hpte
        · rw [hpte] at hnone
          cases hnone
      rw [← htable] at hpte1
      rw [← hfirst, ← htable] at hne
      exact h'.bytes a pte ha hpte1 hne
    · exact h.bytes a pte ha hpte hfirst

/-- The parts of the process record that play no role. -/
theorem Lives.congr {p'' : Proc} (h : Lives s p s' p') (htable : p''.pagetable = p'.pagetable)
    (hextent : SameExtent p'' p') : Lives s p s' p'' :=
  ⟨htable.trans h.table, hextent.trans h.extent, h.leaves, h.bytes⟩

theorem UserFaulted.lives (h : UserFaulted s' s p.pagetable userVpn p.sz) : Lives s p s' p := by
  have htf : TFVPN = 2 ^ 26 - 2 := rfl
  refine ⟨rfl, ⟨rfl, rfl, rfl⟩, fun vpn hvpn => ?_, fun a pte ha hpte hne => ?_⟩
  · refine (h.leaf vpn (by omega)).imp_right ?_
    rintro ⟨hnone, hlow, hnew⟩
    refine ⟨hnone, ⟨vpn * 4096, by omega, ?_⟩, hnew⟩
    rw [pgup] at hlow
    rw [faultByte, if_pos (c := vpn * 4096 < p.sz) (by omega)]
    split <;> simp
  · exact (h.bytes a (userVpn_iff.mpr ha) hne).mapped pte hpte

theorem SameSlot.lives (h : SameSlot fullOwn k' k j) (ht : (k.proc j).pagetable ≠ 0) :
    Lives k.phys (k.proc j) k'.phys (k'.proc j) := by
  have htf : TFVPN = 2 ^ 26 - 2 := rfl
  have htable := h.pagetable
  refine ⟨htable, ?_, fun vpn hvpn => Or.inl ?_, fun a pte ha _ hne => absurd ?_ hne⟩
  · rw [h.proc]
    exact ⟨rfl, rfl, rfl⟩
  · rw [← h.leafPte_eq ht (by omega), htable]
  · rw [← h.byteAt_eq ht (by omega) (fullOwn_iff.mpr ha), htable]

/-- Slots that a call has not touched. -/
theorem Touched.slotStep {slots : List Nat} (ht : Touched fullOwn k' k slots held' held)
    (h : KInv fullOwn held k) (hslots : ∀ j ∈ slots, j < NPROC → (k'.proc j).state ≠ .UNUSED →
      SlotStep k i c k' j) :
    ∀ j, j < NPROC → (k'.proc j).state ≠ .UNUSED → SlotStep k i c k' j := by
  intro j hj hused
  by_cases hin : j ∈ slots
  · exact hslots j hin hj hused
  · have hsame := ht.other j hj hin
    have hstate : (k.proc j).state ≠ .UNUSED := by
      rw [hsame.proc] at hused
      exact hused
    have htf : TFVPN = 2 ^ 26 - 2 := rfl
    have htable := (h.live j hj hstate).table
    refine .lives hstate (hsame.lives htable) fun va _ vpn hvpn => ?_
    rw [← hsame.leafPte_eq htable (by omega), hsame.pagetable]

/-- The process records are what they were, and the caller has been faulted at most. -/
theorem Touched.slotStep_faulted (ht : Touched fullOwn { k with phys := s' } k [i] held' held)
    (h : Acts fullOwn held k i) (hc : ∀ va, c ≠ .mapRo va)
    (hfaulted : UserFaulted s' k.phys (k.proc i).pagetable (fullOwn i (k.proc i).sz)
      (k.proc i).sz) :
    ∀ j, j < NPROC → (k.proc j).state ≠ .UNUSED → SlotStep k i c { k with phys := s' } j := by
  refine ht.slotStep h.inv fun j hj _ _ => ?_
  rw [mem_singleton.mp hj]
  exact .lives h.used hfaulted.lives fun va heq => absurd heq (hc va)

theorem reparented_extent : SameExtent (reparented k i j) (k.proc j) := by
  rw [reparented_eq]
  exact ⟨rfl, rfl, rfl⟩

theorem exitKernel_extent :
    SameExtent ((exitKernel k i status).proc j) (k.proc j) := by
  have hrep := reparented_extent (k := k) (i := i) (j := j)
  by_cases hji : j = i
  · subst hji
    have hself : (exitKernel k j status).proc j =
        { reparented k j j with xstate := status, state := .ZOMBIE } := update_self _ _ _
    rw [hself]
    exact ⟨hrep.sz, hrep.hasRegion, hrep.region⟩
  · have hother : (exitKernel k i status).proc j = reparented k i j := update_of_ne hji _ _
    rw [hother]
    exact hrep

theorem exitKernel_used (hused : (k.proc i).state ≠ .UNUSED)
    (h : ((exitKernel k i status).proc j).state ≠ .UNUSED) : (k.proc j).state ≠ .UNUSED := by
  by_cases hji : j = i
  · rw [hji]
    exact hused
  · have hother : (exitKernel k i status).proc j = reparented k i j := update_of_ne hji _ _
    rw [hother, reparented_eq] at h
    exact h

theorem exitKernel_table :
    ((exitKernel k i status).proc j).pagetable = (k.proc j).pagetable := by
  have hrep : (reparented k i j).pagetable = (k.proc j).pagetable := by rw [reparented_eq]
  by_cases hji : j = i
  · subst hji
    have hself : (exitKernel k j status).proc j =
        { reparented k j j with xstate := status, state := .ZOMBIE } := update_self _ _ _
    rw [hself]
    exact hrep
  · have hother : (exitKernel k i status).proc j = reparented k i j := update_of_ne hji _ _
    rw [hother]
    exact hrep

/-- An image that is mapped is small: memory has room for no more pages. -/
theorem Shows.small {img : Image} {own : Policy} (hinv : KInv own held k) (hi : i < NPROC)
    (hused : (k.proc i).state ≠ .UNUSED) (hshows : Shows k.phys (k.proc i).pagetable img)
    (hlow : ∀ vpn, vpn < pgup img.sz → own i (k.proc i).sz vpn = true) :
    pgup img.sz ≤ 2 ^ 15 := by
  have htf : TFVPN = 2 ^ 26 - 2 := rfl
  have hle := hshows.pages_le
  refine (hinv.sep hi hused).mapped_le hinv.room (by omega) fun vpn hvpn => ⟨hlow vpn hvpn, ?_⟩
  obtain ⟨pte, hpte, _⟩ := hshows.mapped vpn hvpn
  rw [hpte]
  exact Option.some_ne_none pte

/-- The image that `exec` has put in place. -/
theorem exec_small {img : Image} {root : Nat} (hi : i < NPROC) (hused : p.state ≠ .UNUSED)
    (ht : Touched fullOwn (putSlot k i s' { p with pagetable := root, sz := img.sz }) k [i]
      held' held) (hshows : Shows s' root img) : pgup img.sz ≤ 2 ^ 15 := by
  have hself := putSlot_proc k i s' { p with pagetable := root, sz := img.sz }
  refine Shows.small ht.inv hi (by rw [hself]; exact hused) ?_ ?_
  · rw [hself]
    exact hshows
  · intro vpn hvpn
    rw [hself]
    exact fullOwn_low hshows.fits hvpn

theorem AccessOk.lives {flag pa : Nat} (h : AccessOk fullOwn k i va flag pa k') :
    Lives k.phys (k.proc i) k'.phys (k'.proc i) := by
  have htf : TFVPN = 2 ^ 26 - 2 := rfl
  obtain ⟨s', faults, pte, rfl, -, -, -, -, -, ⟨rfl, rfl⟩ |
    ⟨c, page, hbyte, rfl, hnone, hmapped⟩⟩ := h
  · rw [putSlot_proc]
    exact Lives.refl _ _
  · rw [putSlot_proc]
    refine ⟨rfl, ⟨rfl, rfl, rfl⟩, fun vpn hvpn => ?_, fun a pte' ha hpte' hne => absurd ?_ hne⟩
    · by_cases heq : vpn = va / 4096
      · subst heq
        refine Or.inr ⟨hnone, ⟨va, rfl, by rw [hbyte]; exact Option.some_ne_none c⟩, page, ?_⟩
        exact (leafPte_mapped hmapped _ (by omega)).trans (if_pos rfl)
      · exact Or.inl ((leafPte_mapped hmapped vpn (by omega)).trans (if_neg heq))
    · refine (byteAt_mapped hmapped (by omega) (fullOwn_iff.mpr ha)).trans (if_neg fun heq => ?_)
      rw [heq, hnone] at hpte'
      cases hpte'

theorem SameView.lives (h : SameView s' s p.pagetable userVpn) :
    Lives s p s' p := by
  have htf : TFVPN = 2 ^ 26 - 2 := rfl
  refine ⟨rfl, ⟨rfl, rfl, rfl⟩, fun vpn hvpn => Or.inl (h.leaves vpn (by omega)),
    fun a pte ha _ hne => absurd ?_ hne⟩
  exact byteAt_congr (userVpn_iff.mpr ha) (h (a / 4096) (by omega))

theorem AccessPost.lives {flag : Nat} {r : Option Nat}
    (h : AccessPost fullOwn held k i va flag r k') :
    Lives k.phys (k.proc i) k'.phys (k'.proc i) := by
  cases r with
  | some pa => exact AccessOk.lives h.2.2
  | none =>
    obtain ⟨-, -, -, s', hview, rfl⟩ := h
    have hproc := putSlot_proc k i s' { k.proc i with killed := true }
    have hlives : Lives k.phys (k.proc i) s' (k.proc i) := SameView.lives hview
    refine hlives.congr ?_ ?_
    · rw [exitKernel_table, hproc]
    · refine exitKernel_extent.trans ?_
      rw [hproc]
      exact ⟨rfl, rfl, rfl⟩

theorem StorePost.lives {b : UInt8} {r : Bool} (h : StorePost fullOwn held k i va b r k') :
    Lives k.phys (k.proc i) k'.phys (k'.proc i) := by
  rcases h with ⟨-, hpost⟩ | ⟨pa, k1, s', -, ⟨-, -, hok⟩, rfl, -, -, hleaves, hwritten⟩
  · exact hpost.lives
  · have htf : TFVPN = 2 ^ 26 - 2 := rfl
    have hlives := hok.lives
    refine Lives.trans ⟨rfl, ⟨rfl, rfl, rfl⟩, fun vpn hvpn => Or.inl ?_, ?_⟩ hlives
    · rw [hlives.table]
      exact hleaves vpn (by omega)
    · rw [hlives.table]
      obtain ⟨s1, faults, pte, rfl, -, -, hpte, huser, hwrite, -⟩ := hok
      intro a pte' ha hpte' hne
      have hbyte := hwritten a (fullOwn_iff.mpr ha)
      split at hbyte
      · next hin =>
        rw [length_singleton] at hin
        obtain rfl : a = va := by omega
        obtain rfl : pte = pte' := Option.some.inj (hpte.symm.trans hpte')
        exact ⟨huser, hwrite⟩
      · exact absurd hbyte hne

theorem Call.run_effect (h : Acts fullOwn held k i) (c : Call) (hc : c.isShmem = false) :
    (c.run i).Holds k (fun _ k' => Moves held k k' ∧
      ∀ j, j < NPROC → (k'.proc j).state ≠ .UNUSED → SlotStep k i c k' j) (fun _ => True) := by
  have hfull : ∀ vpn, vpn < TFVPN → fullOwn i (k.proc i).sz vpn = true := fun vpn => fullOwn_iff.mpr
  have hself : ∀ {k' : Kernel} {held' : List Nat}, Touched fullOwn k' k [i] held' held →
      SlotStep k i c k' i → ∀ j, j < NPROC → (k'.proc j).state ≠ .UNUSED → SlotStep k i c k' j := by
    intro k' held' ht hstep
    refine ht.slotStep h.inv fun j hj _ _ => ?_
    rw [mem_singleton.mp hj]
    exact hstep
  have hrefl : Moves held k k ∧ ∀ j, j < NPROC → (k.proc j).state ≠ .UNUSED → SlotStep k i c k j :=
    ⟨(Touched.refl h.inv).moves, fun j _ hused => .lives hused (Lives.refl _ _) fun _ _ _ _ => rfl⟩
  cases c with
  | sbrk n =>
    refine holds_ignoring.mpr ((sysSbrk_spec h fun _ _ _ _ _ _ => rfl).mono ?_ (by simp))
    rintro r k' (⟨-, -, rfl⟩ | ⟨sz', s', hsz, -, rfl, ht, hun, -⟩)
    · exact hrefl
    · exact ⟨ht.moves, hself ht (.sbrk n sz' rfl rfl hsz (putSlot_proc _ _ _ _) hun)⟩
  | mapzero size =>
    refine holds_ignoring.mpr ((sysMapzero_spec h).mono ?_ (by simp))
    rintro r k' (⟨-, -, rfl⟩ | ⟨len, hregion, hsize, -, rfl, ht⟩)
    · exact hrefl
    · exact ⟨ht.moves,
        hself ht (.mapzero size len rfl rfl hregion hsize (putSlot_proc _ _ _ _) rfl)⟩
  | mapRo va =>
    refine holds_ignoring.mpr ((sysMapRo_spec h hfull).mono ?_ (by simp))
    rintro r k' ⟨-, s', rfl, ht, ⟨-, hview, -⟩ | ⟨pa, -, hlow, hnone, hmapped⟩⟩
    · have htf : TFVPN = 2 ^ 26 - 2 := rfl
      exact ⟨ht.moves, hself ht (.lives h.used (SameView.lives hview)
        fun _ _ vpn hvpn => hview.leaves vpn (by omega))⟩
    · exact ⟨ht.moves, hself ht (.mapRo va pa rfl rfl rfl hlow hnone hmapped)⟩
  | shmem pid va => cases hc
  | fork =>
    refine holds_ignoring.mpr ((kfork_spec h (fun _ _ _ _ => fullOwn_user)
      fun _ _ _ => fullOwn_low h.live.small).mono ?_ (by simp))
    rintro r k' (⟨-, ht, -, -⟩ | ⟨l, s', trapframe, pagetable, -, hl, hunused, rfl, ht, hchild, -⟩)
    · exact ⟨ht.moves, ht.slotStep h.inv fun j hj => absurd hj not_mem_nil⟩
    · refine ⟨ht.moves, ht.slotStep h.inv fun j hj _ _ => ?_⟩
      rw [mem_singleton.mp hj]
      have hproc := spawned_proc k l s' (childProc (k.proc i) i k.nextpid trapframe pagetable)
      refine .fork rfl hunused ?_ ?_
      · rw [hproc]
        exact ⟨rfl, rfl, rfl⟩
      · rw [hproc]
        exact hchild
  | exec namei upath uargv =>
    refine holds_ignoring.mpr ((sysExec_spec h (fun _ _ => fullOwn_user)
      fun _ _ => fullOwn_low).mono ?_ (by simp))
    rintro r k' (⟨-, s', rfl, ht, hfaulted⟩ |
      ⟨_, _, _, img, _, _, _, s', root, -, -, -, -, rfl, -, ht, hshows, hroot⟩)
    · exact ⟨ht.moves, ht.slotStep_faulted h nofun hfaulted.userFaulted⟩
    · refine ⟨⟨_, _, ht⟩, hself ht (.exec namei upath uargv root img rfl rfl
        (putSlot_proc _ _ _ _) hshows ?_ hroot)⟩
      exact exec_small h.slot h.used ht hshows
  | exit status =>
    have hput : putSlot k i k.phys { k.proc i with killed := (k.proc i).killed } = k :=
      putSlot_self k i k.phys
    have ht := h.inv.exit h.slot h.used (k.proc i).killed (argint status)
    rw [hput] at ht
    refine holds_kexit.mpr ⟨fun _ => trivial, fun _ => ⟨ht.moves, fun j hj hused => ?_⟩⟩
    refine .lives ?_ ((Lives.refl _ _).congr exitKernel_table exitKernel_extent) nofun
    exact exitKernel_used h.used hused
  | wait addr =>
    refine holds_ignoring.mpr ((kwait_spec h (fun _ _ _ => fullOwn_user)
      (zombie_covered h.inv)).mono ?_ (by simp))
    rintro r k' (⟨-, s', rfl, ht, hfaulted⟩ | ⟨l, s1, s', hchild, -, -, rfl, ht, hfaulted, ht'⟩)
    · exact ⟨ht.moves, ht.slotStep_faulted h nofun hfaulted⟩
    · have hne : i ≠ l := by
        rintro rfl
        have hzombie := hchild.2.2
        rw [h.running] at hzombie
        cases hzombie
      refine ⟨⟨_, _, ht'.trans ht⟩, fun j hj hused => ?_⟩
      have hjl : j ≠ l := by
        rintro rfl
        rw [putSlot_proc] at hused
        exact hused rfl
      rw [putSlot_proc_ne k hjl] at hused
      have hsame := ht'.other j hj (by simpa using hjl)
      refine .lives hused ((hsame.lives (h.inv.live j hj hused).table).trans ?_) nofun
      by_cases hji : j = i
      · rw [hji]
        exact hfaulted.lives
      · exact (ht.other j hj (by simpa using hji)).lives (h.inv.live j hj hused).table
  | load va =>
    refine holds_ignoring.mpr ((userLoad_spec h fun _ => hfull).mono ?_ (by simp))
    rintro r k' ⟨_, hpost, -⟩
    exact ⟨hpost.1.moves, hself hpost.1 (.lives h.used hpost.lives nofun)⟩
  | store va b =>
    refine holds_ignoring.mpr ((userStore_spec h fun _ => hfull).mono ?_ (by simp))
    intro r k' hpost
    have ht : Touched fullOwn k' k [i] held held := by
      rcases hpost with ⟨-, hpost⟩ | ⟨_, _, _, -, -, -, ht, -⟩
      · exact hpost.1
      · exact ht
    exact ⟨ht.moves, hself ht (.lives h.used hpost.lives nofun)⟩
  | copyin src len =>
    rw [Call.run, holds_ignoring, copyinFrom, Prog.holds_bind, holds_getProc]
    refine (h.copyin).mono ?_ (by simp)
    rintro r k' ⟨s', rfl, ht, hpost⟩
    exact ⟨ht.moves, ht.slotStep_faulted h nofun hpost.userFaulted⟩
  | copyout dst bytes =>
    rw [Call.run, holds_ignoring, copyoutTo, Prog.holds_bind, holds_getProc]
    refine (h.copyout).mono ?_ (by simp)
    rintro r k' ⟨s', rfl, ht, hpost⟩
    exact ⟨ht.moves, ht.slotStep_faulted h nofun hpost.userFaulted⟩

/-! ## Runs without `shmem` -/

theorem Sound.step {e : Nat × Call} (h : Sound held k) (he : e.2.isShmem = false)
    (hnext : k.next e = some k') :
    ∃ slots lost, Touched fullOwn k' k slots (lost ++ held) held ∧ Sound (lost ++ held) k' := by
  obtain ⟨hi, hrun, hcall⟩ := Kernel.next_eq_some hnext
  obtain ⟨⟨slots, lost, ht⟩, -⟩ := (Call.run_effect (h.inv.acts hi hrun) e.2 he).of_ok hcall
  refine ⟨slots, lost, ht, ht.inv, ?_, ht.refreed.trans h.refreed⟩
  rw [ht.bounds.trampoline, ht.bounds.kend]
  exact h.text

/-- The states that runs without `shmem` reach. -/
def Unshared : Kernel → Prop :=
  Machine.Reach Kernel.next (fun _ e => e.2.isShmem = false) Booted

theorem Unshared.sound (h : Unshared k) : ∃ held, Sound held k := by
  refine Machine.Reach.invariant (P := fun k => ∃ held, Sound held k) ?_ ?_ h
  · intro k hk
    exact ⟨[], hk.started.inv, hk.started.text, hk.started.refreed⟩
  · rintro k e k' ⟨held, hsound⟩ he hnext
    obtain ⟨_, lost, _, hsound'⟩ := hsound.step he hnext
    exact ⟨lost ++ held, hsound'⟩

end Slots

end EAFITos
