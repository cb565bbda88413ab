/-
Exclusive ownership: as long as no page is shared on purpose, every page of memory is in
use in one role at most.
-/
import EAFITos.SlotStep

namespace EAFITos

open List Option

variable {r r' : Role} {vpn : Nat}

/-- The roles in which a page can be in use.  A page table of a slot is named by the
digits that lead to it, a leaf by its virtual page. -/
inductive Role where
  | free (pos : Nat)
  | buffer (pos : Nat)
  | trapframe (slot : Nat)
  | table (slot depth key : Nat)
  | leaf (slot vpn : Nat)
  deriving DecidableEq

/-- The page that plays a role. -/
def Role.page (k : Kernel) : Role → Option Nat
  | .free pos => k.phys.freelist[pos]?
  | .buffer pos => k.kbufs[pos]?
  | .trapframe i =>
    if i < NPROC ∧ (k.proc i).trapframe ≠ 0 then some (k.proc i).trapframe else none
  | .table i d x =>
    if i < NPROC ∧ (k.proc i).pagetable ≠ 0 ∧ d ≤ 2 ∧ x < 512 ^ d then
      node k.phys.mem (k.proc i).pagetable d x
    else none
  | .leaf i vpn =>
    if i < NPROC ∧ (k.proc i).pagetable ≠ 0 ∧ vpn < TFVPN then
      (leafPte k.phys.mem (k.proc i).pagetable vpn).map PTE2PA
    else none

/-- Who holds the pages of a role. -/
inductive Holder where
  | freelist
  | kernel
  | slot (i : Nat)
  deriving DecidableEq

def Role.holder : Role → Holder
  | .free _ => .freelist
  | .buffer _ => .kernel
  | .trapframe i => .slot i
  | .table i _ _ => .slot i
  | .leaf i _ => .slot i

def Holder.pages (k : Kernel) : Holder → List Nat
  | .freelist => k.phys.freelist
  | .kernel => k.kbufs
  | .slot i => if i < NPROC then slotPages fullOwn k i else []

section Roles

variable {k : Kernel} {held : List Nat} {i pg : Nat}

theorem Holder.disjoint (h : KInv fullOwn held k) {a b : Holder} (hne : a ≠ b)
    (ha : pg ∈ a.pages k) (hb : pg ∈ b.pages k) : False := by
  have hnodup := (h.good.left).nodup
  rw [EAFITos.pages, nodup_append', nodup_append'] at hnodup
  obtain ⟨_, ⟨_, _, hkernel⟩, hfree⟩ := hnodup
  have hslots : ∀ i, pg ∈ (Holder.slot i).pages k →
      i < NPROC ∧ pg ∈ slotPages fullOwn k i ∧
        pg ∈ (List.range NPROC).flatMap (slotPages fullOwn k) := by
    intro i hpg
    rw [Holder.pages] at hpg
    split at hpg
    · rename_i hi
      exact ⟨hi, hpg, mem_flatMap.mpr ⟨i, mem_range.mpr hi, hpg⟩⟩
    · cases hpg
  -- the free list and the kernel's pages are apart from all slots
  have hfirst : ∀ b : Holder, b ≠ .freelist → pg ∈ b.pages k → pg ∉ k.phys.freelist := by
    intro b hb hin hpg
    cases b with
    | freelist => exact hb rfl
    | kernel => exact hfree hpg (mem_append_left _ hin)
    | slot i => exact hfree hpg (mem_append_right _ (hslots i hin).2.2)
  have hsecond : ∀ i, pg ∈ (Holder.slot i).pages k → pg ∉ k.kbufs :=
    fun i hin hpg => hkernel hpg (hslots i hin).2.2
  cases a with
  | freelist => exact hfirst b hne.symm hb ha
  | kernel =>
    cases b with
    | freelist => exact hfirst .kernel hne ha hb
    | kernel => exact hne rfl
    | slot i => exact hsecond i hb ha
  | slot i =>
    cases b with
    | freelist => exact hfirst (.slot i) hne ha hb
    | kernel => exact hsecond i ha hb
    | slot j =>
      obtain ⟨hi, hpgi, _⟩ := hslots i ha
      obtain ⟨hj, hpgj, _⟩ := hslots j hb
      have hij : i ≠ j := fun heq => hne (heq ▸ rfl)
      have hout := (h.slot_disjoint hj hi hij hpgi).2
      exact hout (mem_append_right _ (mem_append_left _ hpgj))

theorem KInv.slotPages_live {own : Policy} (h : KInv own held k) (hi : i < NPROC)
    (hlive : Live k.phys (k.proc i)) :
    slotPages own k i = (k.proc i).trapframe ::
        (tablePages k.phys.mem (k.proc i).pagetable ++
          ownedLeaves k.phys.mem (k.proc i).pagetable (own i (k.proc i).sz)) ∧
      (slotPages own k i).Nodup := by
  refine ⟨procPages_live hlive.table hlive.frame, ?_⟩
  have hnodup := (h.slotGood hi).nodup
  rw [nodup_append', nodup_append'] at hnodup
  exact hnodup.2.1.1

/-- The part of a slot that plays a role of the slot. -/
inductive InSlot (k : Kernel) (i : Nat) : Role → Nat → Prop
  | trapframe {pg : Nat} : (k.proc i).trapframe = pg → InSlot k i (.trapframe i) pg
  | table {d x t : Nat} : d ≤ 2 → x < 512 ^ d →
      node k.phys.mem (k.proc i).pagetable d x = some t → InSlot k i (.table i d x) t
  | leaf {vpn pte pg : Nat} : vpn < TFVPN →
      leafPte k.phys.mem (k.proc i).pagetable vpn = some pte → PTE2PA pte = pg →
      InSlot k i (.leaf i vpn) pg

theorem tfvpn_lt (h : vpn < TFVPN) : vpn < 512 ^ 3 := by
  have htfvpn : TFVPN = 2 ^ 26 - 2 := rfl
  omega

theorem mem_ownedLeaves {sz pte root : Nat} {m : ByteMem} (hvpn : vpn < TFVPN)
    (hpte : leafPte m root vpn = some pte) : PTE2PA pte ∈ ownedLeaves m root (fullOwn i sz) :=
  mem_ownedLeaves_iff.2 ⟨vpn, pte, tfvpn_lt hvpn, fullOwn_iff.mpr hvpn, hpte, rfl⟩

/-- Which of the three parts of its slot a page belongs to. -/
theorem InSlot.mem (hlive : Live k.phys (k.proc i)) (h : InSlot k i r pg) :
    pg ∈ slotPages fullOwn k i := by
  rw [slotPages, procPages_live hlive.table hlive.frame]
  cases h with
  | trapframe heq => exact heq ▸ mem_cons_self
  | table hd hx hnode =>
    exact mem_cons_of_mem _ (mem_append_left _ (node_mem_tablePages hd hx hnode))
  | leaf hvpn hpte heq =>
    exact heq ▸ mem_cons_of_mem _ (mem_append_right _ (mem_ownedLeaves hvpn hpte))

/-- Within a slot a page plays one role. -/
theorem InSlot.unique (hinv : KInv fullOwn held k) (hi : i < NPROC)
    (hlive : Live k.phys (k.proc i)) (h : InSlot k i r pg) (h' : InSlot k i r' pg) : r = r' := by
  obtain ⟨hpages, hnodup⟩ := hinv.slotPages_live hi hlive
  rw [hpages, nodup_cons, nodup_append', mem_append, not_or] at hnodup
  obtain ⟨⟨hframetable, hframeleaf⟩, _, _, hapart⟩ := hnodup
  cases h with
  | trapframe heq =>
    subst heq
    cases h' with
    | trapframe => rfl
    | table hd hx hnode => exact absurd (node_mem_tablePages hd hx hnode) hframetable
    | leaf hvpn hpte heq => exact absurd (heq ▸ mem_ownedLeaves hvpn hpte) hframeleaf
  | table hd hx hnode =>
    have htable := node_mem_tablePages hd hx hnode
    cases h' with
    | trapframe heq => exact absurd (heq ▸ htable) hframetable
    | table hd' hx' hnode' =>
      obtain ⟨rfl, rfl⟩ := hlive.inv.distinct _ _ _ _ _ hd hd' hx hx' hnode hnode'
      rfl
    | leaf hvpn hpte heq => exact (hapart htable (heq ▸ mem_ownedLeaves hvpn hpte)).elim
  | leaf hvpn hpte heq =>
    have hleaf : pg ∈ ownedLeaves k.phys.mem (k.proc i).pagetable
        (fullOwn i (k.proc i).sz) := heq ▸ mem_ownedLeaves hvpn hpte
    cases h' with
    | trapframe heq' => exact absurd (heq' ▸ hleaf) hframeleaf
    | table hd hx hnode => exact (hapart (node_mem_tablePages hd hx hnode) hleaf).elim
    | leaf hvpn' hpte' heq' =>
      have hsep := hinv.sep hi fun hstate =>
        hlive.table (by rw [hinv.unused i hi hstate]; rfl)
      rw [hsep.leaf_inj (tfvpn_lt hvpn) (fullOwn_iff.mpr hvpn) hpte (tfvpn_lt hvpn')
        (fullOwn_iff.mpr hvpn') hpte' (heq'.trans heq.symm)]

end Roles

end EAFITos
