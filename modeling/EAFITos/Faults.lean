/-
User page faults: each one maps the page that was missing, so that the access succeeds when it
is tried again, or has the process killed; and the counter of faults counts first touches.
-/
import EAFITos.CopyExact

namespace EAFITos

open Function List Prog Option

variable {s s' : Phys} {p : Proc} {k k' : Kernel} {i : Nat}

/-! ## One fault -/

theorem UserMemory.faultEnv (h : UserMemory k.phys (k.proc i)) {va : Nat} :
    FaultEnv fullOwn [] k i va where
  sep := h.sep
  small := h.live.small
  region := h.live.region
  owns := by
    have htf : TRAPFRAME = TFVPN * 4096 := rfl
    have hsmall := h.live.small
    rintro (hlt | hin)
    · exact fullOwn_iff.mpr (by omega)
    · have hva := faultByte_lt h.live.small h.live.region (if_pos hin)
      exact fullOwn_iff.mpr (by omega)

/-- The fault has mapped the page of `va`, filled according to where it lies, and both a load
and a store can now go through. -/
structure FaultServed (k : Kernel) (i va : Nat) (k' : Kernel) (pte : Nat) : Prop where
  flags : PTE_FLAGS pte = PTE_V ||| PTE_R ||| PTE_W ||| PTE_U
  fresh : leafPte k.phys.mem (k.proc i).pagetable (va / 4096) = none
  leaves : ∀ vpn, vpn < 512 ^ 3 → leafPte k'.phys.mem (k.proc i).pagetable vpn =
    if vpn = va / 4096 then some pte else leafPte k.phys.mem (k.proc i).pagetable vpn
  bytes : ∀ b, b < TRAPFRAME → byteAt k'.phys.mem (k.proc i).pagetable b =
    if b / 4096 = va / 4096 then if inRegion (k.proc i) va then 0x41 else 0
    else byteAt k.phys.mem (k.proc i).pagetable b
  counted : k'.proc = Function.update k.proc i
    { k.proc i with pageFaults := wrap32 ((k.proc i).pageFaults + 1) }
  retry : ∀ flag, flag = PTE_R ∨ flag = PTE_W →
    translate k'.phys.mem (k.proc i).pagetable va flag = some (PTE2PA pte + va % PGSIZE)

/-- The process is to be killed.  The mappings are as before, and the pages that are no longer
free are page-table pages: no page for data is lost. -/
structure FaultRefused (k : Kernel) (i : Nat) (k' : Kernel) : Prop where
  killed : k'.proc = Function.update k.proc i { k.proc i with killed := true }
  leaves : SameLeaves k'.phys k.phys (k.proc i).pagetable
  bytes : ∀ b, b < TRAPFRAME → byteAt k'.phys.mem (k.proc i).pagetable b =
    byteAt k.phys.mem (k.proc i).pagetable b
  pages : (k'.phys.freelist ++ tablePages k'.phys.mem (k.proc i).pagetable).Perm
    (k.phys.freelist ++ tablePages k.phys.mem (k.proc i).pagetable)

theorem FaultExact.cases {va : Nat} (h : UserMemory k.phys (k.proc i))
    (hfault : FaultExact fullOwn [] k i va k') :
    (∃ pte, FaultServed k i va k' pte) ∨ FaultRefused k i k' := by
  have htf : TRAPFRAME = TFVPN * 4096 := rfl
  have htfvpn : TFVPN = 2 ^ 26 - 2 := rfl
  have hmax : MAXVA = 2 ^ 38 := rfl
  obtain ⟨s', hmoved, -, ⟨c, pa, hbyte, hpage, hnone, hmapped, -, -, rfl⟩ | ⟨hview, -, rfl⟩⟩ :=
    hfault
  · left
    have hva := faultByte_lt h.live.small h.live.region hbyte
    have hleaves := leafPte_mapped hmapped
    have hself := hleaves (va / 4096) (by omega)
    rw [if_pos rfl] at hself
    have hfill : c = if inRegion (k.proc i) va then 0x41 else 0 := by
      rw [faultByte] at hbyte
      split at hbyte
      · next hin =>
        rw [if_pos hin]
        exact (some.inj hbyte).symm
      · next hout =>
        rw [if_neg hout]
        rw [ite_none_right_eq_some] at hbyte
        exact (some.inj hbyte.2).symm
    refine ⟨mkPte pa faultPerm, ?_, hnone, hleaves, fun b hb => ?_, rfl, fun flag hflag => ?_⟩
    · rw [PTE_FLAGS_mkPte (by decide)]
      decide
    · rw [← hfill]
      exact byteAt_mapped hmapped (by omega) (fullOwn_iff.mpr (by omega))
    · refine translate_of_leaf (by omega) hself (hasFlag_fault (by decide) (by decide)) ?_
      rcases hflag with rfl | rfl
      · exact hasFlag_fault (by decide) (by decide)
      · exact hasFlag_fault (by decide) (by decide)
  · right
    refine ⟨rfl, hview.leaves, fun b hb => ?_, hmoved.free_tables hview.leaves⟩
    exact byteAt_congr (userVpn_iff.mpr (by omega)) (hview (b / 4096) (by omega))

/-- A load or a store of the user. -/
inductive Access
  | load (va : Nat)
  | store (va : Nat) (b : UInt8)

def Access.va : Access → Nat
  | .load va => va
  | .store va _ => va

def Access.flag : Access → Nat
  | .load _ => PTE_R
  | .store _ _ => PTE_W

def Access.run (i : Nat) : Access → Prog Kernel PUnit
  | .load va => ignoring (userLoad i va)
  | .store va b => ignoring (userStore i va b)

/-- The address is in the heap or in the region, and the page is not one that is mapped
without the permission. -/
structure Access.Allowed (k : Kernel) (i : Nat) (a : Access) : Prop where
  inside : a.va < (k.proc i).sz ∨ inRegion (k.proc i) a.va = true
  flags : ∀ pte, leafPte k.phys.mem (k.proc i).pagetable (a.va / 4096) = some pte →
    hasFlag pte PTE_U = true ∧ hasFlag pte a.flag = true

theorem Access.flag_lt (a : Access) : a.flag < 1024 := by
  cases a with
  | load va => exact (by decide : PTE_R < 1024)
  | store va b => exact (by decide : PTE_W < 1024)

theorem Access.flag_fault (a : Access) : hasFlag faultPerm a.flag = true := by
  cases a with
  | load va => exact (by decide : hasFlag faultPerm PTE_R = true)
  | store va b => exact (by decide : hasFlag faultPerm PTE_W = true)

/-- The pages of a sequence of accesses. -/
def touchedPages (accesses : List Access) : Finset Nat :=
  (accesses.map fun a => a.va / 4096).toFinset

theorem touchedPages_cons (a : Access) (accesses : List Access) :
    touchedPages (a :: accesses) = insert (a.va / 4096) (touchedPages accesses) := by
  rw [touchedPages, map_cons, toFinset_cons, touchedPages]

theorem touchedPages_perm {l l' : List Access} (h : l.Perm l') :
    touchedPages l = touchedPages l' := toFinset_eq_of_perm _ _ (h.map _)

/-- The pages of a set that are not mapped. -/
def untouched (m : ByteMem) (root : Nat) (vpns : Finset Nat) : Nat :=
  (vpns.filter fun vpn => leafPte m root vpn = none).card

/-- `resetpfaults`, the accesses, and `getpfaults`. -/
def countFaults (i : Nat) (accesses : List Access) : Prog Kernel Int := do
  let _ ← sysResetpfaults i
  Prog.forEach (Access.run i) accesses
  sysGetpfaults i

/-- What an access to the page `vpn` does, besides the data: the page is there afterwards, and
it has been counted if it was not there before. -/
structure Touch (k : Kernel) (i vpn : Nat) (k' : Kernel) : Prop where
  memory : UserMemory k'.phys (k'.proc i)
  proc : k'.proc i = { k.proc i with
    pageFaults := if leafPte k.phys.mem (k.proc i).pagetable vpn = none
      then wrap32 ((k.proc i).pageFaults + 1) else (k.proc i).pageFaults }
  leaves : ∀ v, v < 512 ^ 3 →
    leafPte k'.phys.mem (k.proc i).pagetable v = leafPte k.phys.mem (k.proc i).pagetable v ∨
      ∃ pa, leafPte k'.phys.mem (k.proc i).pagetable v = some (mkPte pa faultPerm)
  pages : Materialised k'.phys.mem k.phys.mem (k.proc i).pagetable vpn
  count : k.phys.freelist.length =
    k'.phys.freelist.length + need k.phys.mem (k.proc i).pagetable vpn

theorem UserMemory.moved (h : UserMemory s p)
    (hmoved : Moved s' s p.pagetable userVpn [p.trapframe] [p.trapframe])
    (hfixed : ∀ vpn, TFVPN ≤ vpn → vpn < 2 ^ 26 →
      leafPte s'.mem p.pagetable vpn = leafPte s.mem p.pagetable vpn) (faults : Int) :
    UserMemory s' { p with pageFaults := faults } := by
  have hlive := h.live
  have hsep := hmoved.sep h.sep
  refine ⟨⟨hlive.table, hlive.frame, hsep.inv, hlive.framed.congr hmoved.shift.bounds hfixed,
    hlive.small, ⟨hlive.region.start, hlive.region.size, hlive.region.fits⟩, hlive.alive⟩, hsep, ?_⟩
  rw [hmoved.shift.bounds.trampoline, hmoved.shift.bounds.kend]
  exact h.text

theorem UserMemory.heldEnv (h : UserMemory s p) :
    UserEnv s p.pagetable userVpn [p.trapframe] p.sz :=
  ⟨h.sep, h.env.small, h.env.owns, h.env.user, fun _ _ hvpn hpte huser =>
    Or.inl (userVpn_iff.mpr (h.live.user_lt hvpn hpte huser))⟩

theorem userAccess_touch (h : UserMemory k.phys (k.proc i))
    (hrun : (k.proc i).state = .RUNNABLE) {a : Access} (hallowed : a.Allowed k i)
    (hneed : need k.phys.mem (k.proc i).pagetable (a.va / 4096) ≤ k.phys.freelist.length) :
    (userAccess i a.va a.flag).Holds k (fun r k' => Touch k i (a.va / 4096) k' ∧
      ∃ pte, leafPte k'.phys.mem (k.proc i).pagetable (a.va / 4096) = some pte ∧
        hasFlag pte PTE_U = true ∧ r = some (PTE2PA pte + a.va % 4096)) (fun _ => False) := by
  have htf : TRAPFRAME = TFVPN * 4096 := rfl
  have htfvpn : TFVPN = 2 ^ 26 - 2 := rfl
  have hmax : MAXVA = 2 ^ 38 := rfl
  rw [userAccess, holds_bind, holds_getProc, holds_bind, holds_read]
  have hbyte : ∃ c, faultByte (k.proc i) a.va = some c := by
    rw [faultByte]
    rcases hallowed.inside with hlt | hin
    · rw [if_pos hlt]
      exact ⟨_, (apply_ite some _ _ _).symm⟩
    · exact ⟨_, if_pos hin⟩
  obtain ⟨c, hbyte⟩ := hbyte
  have hva := faultByte_lt h.live.small h.live.region hbyte
  cases hleaf : leafPte k.phys.mem (k.proc i).pagetable (a.va / 4096) with
  | some pte =>
    obtain ⟨huser, hflag⟩ := hallowed.flags pte hleaf
    rw [translate_of_leaf (by omega) hleaf huser hflag]
    dsimp only
    rw [holds_pure]
    refine ⟨⟨h, ?_, fun v hv => Or.inl rfl, Materialised.of_mapped hleaf, ?_⟩, pte, hleaf, huser,
      rfl⟩
    · rw [hleaf, if_neg (by simp)]
    · rw [need, hleaf, if_neg (by simp), Nat.add_zero]
  | none =>
    have htrans : translate k.phys.mem (k.proc i).pagetable a.va a.flag = none := by
      have hpg : a.va / PGSIZE = a.va / 4096 := rfl
      rw [translate, hpg, hleaf, ite_self]
    rw [htrans]
    dsimp only
    rw [holds_bind, usertrap, holds_bind]
    refine (handleFault_exact h.faultEnv).imp ?_
    rintro _ k1 ⟨s', hmoved, -, ⟨c', pa, -, hpage, -, hmapped, hmat, hcount, rfl⟩ | ⟨-, hwhy, -⟩⟩
    · have hproc : (putSlot k i s' { k.proc i with
          pageFaults := wrap32 ((k.proc i).pageFaults + 1) }).proc i =
          { k.proc i with pageFaults := wrap32 ((k.proc i).pageFaults + 1) } :=
        update_self _ _ _
      have hleaves := leafPte_mapped hmapped
      have hself := hleaves (a.va / 4096) (by omega)
      rw [if_pos rfl] at hself
      have huser : hasFlag (mkPte pa faultPerm) PTE_U = true :=
        hasFlag_fault (by decide) (by decide)
      have hflag : hasFlag (mkPte pa faultPerm) a.flag = true :=
        hasFlag_fault a.flag_lt a.flag_fault
      rw [holds_bind, holds_getProc, hproc, h.live.alive hrun, if_neg Bool.false_ne_true,
        holds_pure, holds_bind, holds_getProc, hproc, if_neg (by rw [hrun]; decide),
        holds_bind, holds_read]
      have hgo : translate (putSlot k i s' { k.proc i with
          pageFaults := wrap32 ((k.proc i).pageFaults + 1) }).phys.mem (k.proc i).pagetable a.va
          a.flag = some (PTE2PA (mkPte pa faultPerm) + a.va % 4096) :=
        translate_of_leaf (by omega) hself huser hflag
      rw [hgo]
      dsimp only
      rw [holds_pure]
      refine ⟨⟨?_, ?_, fun v hv => ?_, hmat, hcount⟩, _, hself, huser, rfl⟩
      · rw [hproc]
        refine h.moved hmoved (fun vpn hlo hhi => ?_) _
        rw [hleaves vpn (by omega), if_neg (by omega)]
      · rw [hproc, if_pos hleaf]
      · have hv' := hleaves v hv
        split at hv'
        · exact Or.inr ⟨pa, hv'⟩
        · exact Or.inl hv'
    · rcases hwhy with hno | hmapped | hfew
      · rw [hbyte] at hno
        cases hno
      · exact absurd hleaf hmapped
      · omega

/-- A store of one byte changes neither the mappings nor the tables. -/
theorem Touch.store {k1 : Kernel} {vpn va pte : Nat} (h : Touch k i vpn k1) (hva : va / 4096 = vpn)
    (hlow : vpn < 512 ^ 3) (hpte : leafPte k1.phys.mem (k.proc i).pagetable vpn = some pte)
    (huser : hasFlag pte PTE_U = true) (b : UInt8) :
    Touch k i vpn { k1 with phys := { k1.phys with
      mem := k1.phys.mem.storeBytes (PTE2PA pte + va % 4096) [b] } } := by
  have hroot : (k1.proc i).pagetable = (k.proc i).pagetable := by rw [h.proc]
  have henv := h.memory.heldEnv
  rw [hroot] at henv
  have hfit : va % 4096 + [b].length ≤ 4096 := by
    rw [length_singleton]
    omega
  subst hva
  obtain ⟨hmoved, hleaves, -⟩ := written_store henv hlow hpte huser hfit rfl
  have htables := henv.store_tables hlow hpte huser hfit
  refine ⟨?_, h.proc, fun v hv => ?_, ?_, h.count⟩
  · rw [← hroot] at hmoved hleaves
    exact h.memory.moved hmoved (fun v _ hv => hleaves v (by omega)) (k1.proc i).pageFaults
  · rw [hleaves v hv]
    exact h.leaves v hv
  · exact h.pages.congr htables

theorem Access.Allowed.low {a : Access} (hallowed : a.Allowed k i)
    (hlive : Live k.phys (k.proc i)) : a.va / 4096 < TFVPN := by
  have htf : TRAPFRAME = TFVPN * 4096 := rfl
  have hsmall := hlive.small
  rcases hallowed.inside with hlt | hin
  · omega
  · have hva := faultByte_lt hlive.small hlive.region (if_pos hin)
    omega

theorem Access.run_touch (h : UserMemory k.phys (k.proc i))
    (hrun : (k.proc i).state = .RUNNABLE) {a : Access} (hallowed : a.Allowed k i)
    (hneed : need k.phys.mem (k.proc i).pagetable (a.va / 4096) ≤ k.phys.freelist.length) :
    (a.run i).Holds k (fun _ k' => Touch k i (a.va / 4096) k') (fun _ => False) := by
  have haccess := userAccess_touch h hrun hallowed hneed
  cases a with
  | load va =>
    rw [Access.run, holds_ignoring, userLoad, holds_bind]
    refine haccess.imp ?_
    rintro r k' ⟨htouch, pte, -, -, rfl⟩
    dsimp only
    rw [holds_bind, holds_read, holds_pure]
    exact htouch
  | store va b =>
    rw [Access.run, holds_ignoring, userStore, holds_bind]
    refine haccess.imp ?_
    rintro r k' ⟨htouch, pte, hpte, huser, rfl⟩
    dsimp only
    rw [holds_bind, holds_onPhys, holds_update, holds_pure]
    have htf : TFVPN = 2 ^ 26 - 2 := rfl
    have hlow := hallowed.low h.live
    exact htouch.store rfl (by omega) hpte huser b

/-- An access leaves the later ones allowed. -/
theorem Touch.allowed {vpn : Nat} (h : Touch k i vpn k') {a : Access}
    (hlive : Live k.phys (k.proc i)) (hallowed : a.Allowed k i) : a.Allowed k' i := by
  have htf : TFVPN = 2 ^ 26 - 2 := rfl
  have hlow := hallowed.low hlive
  refine ⟨?_, fun pte hpte => ?_⟩
  · rw [h.proc]
    exact hallowed.inside
  · rw [h.proc] at hpte
    rcases h.leaves (a.va / 4096) (by omega) with hsame | ⟨pa, hnew⟩
    · exact hallowed.flags pte (hsame ▸ hpte)
    · rw [hnew, some.injEq] at hpte
      rw [← hpte]
      exact ⟨hasFlag_fault (by decide) (by decide), hasFlag_fault a.flag_lt a.flag_fault⟩

theorem wrap32_of_small {x : Int} (hlo : 0 ≤ x) (hhi : x < 2 ^ 31) : wrap32 x = x := by
  rw [wrap32]
  omega

/-- The counter after a sequence of accesses. -/
theorem forEach_touches (accesses : List Access) (h : UserMemory k.phys (k.proc i))
    (hrun : (k.proc i).state = .RUNNABLE) (hallowed : ∀ a ∈ accesses, a.Allowed k i)
    (hmemory : demand k.phys.mem (k.proc i).pagetable (touchedPages accesses) ≤
      k.phys.freelist.length) (hlo : 0 ≤ (k.proc i).pageFaults) (hhi : (k.proc i).pageFaults +
      untouched k.phys.mem (k.proc i).pagetable (touchedPages accesses) < 2 ^ 31) :
    (Prog.forEach (Access.run i) accesses).Holds k (fun _ k' => (k'.proc i).pageFaults =
      (k.proc i).pageFaults + untouched k.phys.mem (k.proc i).pagetable (touchedPages accesses))
      (fun _ => False) := by
  induction accesses generalizing k with
  | nil =>
    rw [Prog.forEach, holds_ret]
    exact (Int.add_zero _).symm
  | cons a accesses ih =>
    have htf : TFVPN = 2 ^ 26 - 2 := rfl
    have hhead := hallowed a mem_cons_self
    have htail : ∀ b ∈ accesses, b.Allowed k i := fun b hb => hallowed b (mem_cons_of_mem _ hb)
    have hlow : ∀ v ∈ touchedPages accesses, v < 512 ^ 3 := by
      intro v hv
      obtain ⟨b, hb, rfl⟩ := mem_map.mp (mem_toFinset.mp hv)
      have := (htail b hb).low h.live
      omega
    rw [touchedPages_cons] at hmemory hhi ⊢
    rw [Prog.forEach, holds_andThen]
    refine (Access.run_touch h hrun hhead
      ((need_le_demand (Finset.mem_insert_self _ _)).trans hmemory)).imp ?_
    intro _ k1 htouch
    have hcard : untouched k.phys.mem (k.proc i).pagetable
        (insert (a.va / 4096) (touchedPages accesses)) =
        (if leafPte k.phys.mem (k.proc i).pagetable (a.va / 4096) = none then 1 else 0) +
          untouched k1.phys.mem (k.proc i).pagetable (touchedPages accesses) :=
      card_filter_insert fun v hv => htouch.pages.leaf v (hlow v hv)
    have hdemand := htouch.pages.demand hlow
    have hcount := htouch.count
    have hfaults : (k1.proc i).pageFaults = (k.proc i).pageFaults +
        (if leafPte k.phys.mem (k.proc i).pagetable (a.va / 4096) = none then 1
          else 0 : Nat) := by
      rw [htouch.proc]
      dsimp only
      split at hcard
      · next hnone =>
        rw [if_pos hnone, if_pos hnone, wrap32_of_small (by omega) (by omega)]
        rfl
      · next hmapped =>
        rw [if_neg hmapped, if_neg hmapped]
        exact (Int.add_zero _).symm
    have hroot : (k1.proc i).pagetable = (k.proc i).pagetable := by rw [htouch.proc]
    have hstate : (k1.proc i).state = .RUNNABLE := by
      rw [htouch.proc]
      exact hrun
    have hnext : ∀ b ∈ accesses, b.Allowed k1 i := fun b hb => htouch.allowed h.live (htail b hb)
    refine (ih htouch.memory hstate hnext ?_ ?_ ?_).imp ?_
    · rw [hroot]
      omega
    · omega
    · rw [hroot, hfaults]
      omega
    · intro _ k' hk'
      rw [hk', hroot, hfaults, hcard]
      omega

/-- The counter of page faults measures first touches: whatever the order of the accesses, it
is the number of their pages that were not mapped at the start. -/
theorem fault_counter_counts_first_touches {accesses order : List Access}
    (h : UserMemory k.phys (k.proc i)) (hrun : (k.proc i).state = .RUNNABLE)
    (hallowed : ∀ a ∈ accesses, a.Allowed k i)
    (hmemory : demand k.phys.mem (k.proc i).pagetable (touchedPages accesses) ≤
      k.phys.freelist.length)
    (horder : order.Perm accesses) :
    (countFaults i order).Holds k
      (fun faults _ => faults =
        untouched k.phys.mem (k.proc i).pagetable (touchedPages accesses)) (fun _ => False) := by
  have htf : TFVPN = 2 ^ 26 - 2 := rfl
  have hlow : touchedPages accesses ⊆ Finset.range TFVPN := by
    intro v hv
    obtain ⟨a, ha, rfl⟩ := List.mem_map.mp (List.mem_toFinset.mp hv)
    exact Finset.mem_range.mpr ((hallowed a ha).low h.live)
  have hbound : untouched k.phys.mem (k.proc i).pagetable (touchedPages accesses) ≤ TFVPN :=
    (Finset.card_filter_le _ _).trans ((Finset.card_le_card hlow).trans (Finset.card_range _).le)
  have hproc : (putSlot k i k.phys { k.proc i with pageFaults := 0 }).proc i =
      { k.proc i with pageFaults := 0 } := Function.update_self _ _ _
  have hphys : (putSlot k i k.phys { k.proc i with pageFaults := 0 }).phys = k.phys := rfl
  rw [countFaults, sysResetpfaults, Prog.holds_bind, Prog.holds_bind, holds_setProc,
    Prog.holds_pure, Prog.holds_bind]
  refine (forEach_touches order ?_ ?_ (fun a ha => ?_) ?_ ?_ ?_).imp ?_
  · rw [hproc, hphys]
    exact h.moved (Moved.refl h.live.inv) (fun _ _ _ => rfl) 0
  · rw [hproc]
    exact hrun
  · obtain ⟨hinside, hflags⟩ := hallowed a (horder.mem_iff.mp ha)
    refine ⟨?_, ?_⟩
    · rw [hproc]
      exact hinside
    · rw [hproc, hphys]
      exact hflags
  · rw [hproc, hphys, touchedPages_perm horder]
    exact hmemory
  · rw [hproc]
  · rw [hproc, hphys, touchedPages_perm horder]
    dsimp only
    omega
  · intro _ k' hk'
    rw [hproc, hphys, touchedPages_perm horder] at hk'
    rw [sysGetpfaults, Prog.holds_bind, holds_getProc, Prog.holds_pure, hk']
    exact Int.zero_add _

theorem fault_counter_counts_first_touches_small : ∃ k : Kernel,
    UserMemory k.phys (k.proc 0) ∧
    (countFaults 0 [.load 8192, .store 8200 7]).Holds k (fun faults _ => faults = 1)
      (fun _ => False) := by
  obtain ⟨k, hk⟩ := small_boots
  obtain ⟨hmemory, hnone⟩ := hk.lazy
  have hproc := putSlot_proc k 0 k.phys { k.proc 0 with sz := 12288 }
  have hphys : (putSlot k 0 k.phys { k.proc 0 with sz := 12288 }).phys = k.phys := rfl
  generalize putSlot k 0 k.phys { k.proc 0 with sz := 12288 } = k1 at hproc hphys
  rw [← hproc, ← hphys] at hmemory
  have hroot : (k1.proc 0).pagetable = (k.proc 0).pagetable := by rw [hproc]
  rw [← hroot, ← hphys] at hnone
  have hpages : touchedPages [Access.store 8200 7, .load 8192] = {2} := by decide
  have hallowed : ∀ a ∈ [Access.store 8200 7, .load 8192], a.Allowed k1 0 := by
    intro a ha
    have hpage : a.va < 12288 ∧ a.va / 4096 = 2 := by
      rcases List.mem_pair.mp ha with rfl | rfl
      · decide
      · decide
    refine ⟨?_, fun pte hpte => ?_⟩
    · rw [hproc]
      exact Or.inl hpage.1
    · rw [hpage.2, hnone] at hpte
      cases hpte
  refine ⟨k1, hmemory, ?_⟩
  refine (fault_counter_counts_first_touches hmemory ?_ hallowed ?_ (.swap _ _ _)).imp ?_
  · rw [hproc]
    exact hk.running
  · have hfree := hk.free
    have hdemand := demand_le k1.phys.mem (k1.proc 0).pagetable {2}
    rw [Finset.card_singleton, hphys] at hdemand
    rw [hpages, hphys]
    omega
  · intro faults _ hfaults
    rw [hfaults, hpages, untouched, Finset.filter_singleton, if_pos hnone]
    rfl

end EAFITos
