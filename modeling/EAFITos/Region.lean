/-
The heap and the region of `mapzero`: they are reserved by separate calls, and stay apart
only as long as no `sbrk` takes the heap beyond the start of the region.
-/
import EAFITos.SlotStep

namespace EAFITos

/-- The region of a process lies above its heap and ends below the trapframe. -/
def RegionAbove (p : Proc) : Prop :=
  p.hasRegion = true → PGROUNDUP p.sz ≤ p.region.start ∧
    p.region.start + p.region.size < TRAPFRAME ∧ 0 < p.region.size ∧
    p.region.size % PGSIZE = 0

theorem RegionAbove.congr {p p' : Proc} (h : RegionAbove p) (hsame : SameExtent p' p) : RegionAbove p' := by
  rw [RegionAbove, hsame.sz, hsame.hasRegion, hsame.region]
  exact h

/-- The step takes no heap beyond the start of a region. -/
def KeepsAbove (k : Kernel) (e : Nat × Call) : Prop :=
  match e.2 with
  | .sbrk n => (k.proc e.1).hasRegion = true →
      ∀ sz', sbrkSize (k.proc e.1).sz (argint n) = some sz' → PGROUNDUP sz' ≤ regionStart
  | .mapzero size => (k.proc e.1).hasRegion = false →
      regionSize (argint size) ≠ none → PGROUNDUP (k.proc e.1).sz ≤ regionStart
  | .shmem _ _ => False
  | _ => True

section Extent

variable {k k' : Kernel} {held held' : List Nat} {i j : Nat}

theorem SlotStep.above {c : Call} (h : SlotStep k i c k' j) (hc : KeepsAbove k (i, c))
    (hlive : Live k.phys (k.proc i)) (hself : RegionAbove (k.proc i))
    (hj : RegionAbove (k.proc j)) : RegionAbove (k'.proc j) := by
  cases h with
  | lives _ hlives _ => exact hj.congr hlives.extent
  | sbrk n sz' call slot size proc _ =>
    subst call slot
    rw [proc]
    intro hregion
    exact ⟨hlive.region.start hregion ▸ hc hregion sz' size, (hself hregion).2⟩
  | mapzero size len call slot fresh hsize proc _ =>
    subst call slot
    rw [proc]
    intro _
    obtain ⟨hpos, halign, hfits⟩ := regionSize_bounds (argint_lt size) hsize
    exact ⟨hc fresh (by rw [hsize]; nofun), hfits, hpos, halign⟩
  | mapRo va pa _ slot proc _ _ _ =>
    subst slot
    rw [proc]
    exact hself
  | fork _ _ extent _ => exact hself.congr extent
  | exec _ _ _ root img _ slot proc shows small _ =>
    subst slot
    rw [proc]
    intro hregion
    refine ⟨?_, (hself hregion).2⟩
    have hstart : (k.proc j).region.start = regionStart := hlive.region.start hregion
    have hvalue : regionStart = 0x70000 * 4096 := rfl
    have hfits : img.sz ≤ 2 ^ 38 := shows.fits.trans (by decide)
    rw [hstart, PGROUNDUP_eq hfits]
    omega

/-- With the region above the heap, the address decides what a page is filled with when it
is materialised. -/
theorem RegionAbove.faultByte {p : Proc} (h : RegionAbove p) (hsmall : p.sz ≤ TRAPFRAME)
    (hregion : p.hasRegion = true) {va : Nat} {c : UInt8} (hbyte : faultByte p va = some c) :
    c = if va < p.region.start then 0 else 0x41 := by
  have hsz : p.sz ≤ PGROUNDUP p.sz := by
    rw [PGROUNDUP_eq (hsmall.trans (by decide)), pgup]
    omega
  have habove := (h hregion).1
  rw [EAFITos.faultByte] at hbyte
  split at hbyte
  · rename_i hin
    have hlo := (inRegion_iff.mp hin).2.1
    rw [if_neg (by omega)]
    exact (Option.some.inj hbyte).symm
  · split at hbyte
    · rw [if_pos (by omega)]
      exact (Option.some.inj hbyte).symm
    · cases hbyte

theorem SmallBooted.grown (h : SmallBooted k) (n sz : Nat)
    (hsz : sbrkSize 8192 (argint n) = some sz) :
    ∃ k1 k', k.next (0, .mapzero 4096) = some k1 ∧ (k1.proc 0).sz = 8192 ∧
      k1.next (0, .sbrk n) = some k' ∧ (k'.proc 0).sz = sz ∧
      (k'.proc 0).hasRegion = true ∧ (k'.proc 0).region = ⟨regionStart, 4096⟩ := by
  have hnext := h.mapzero
  have hstart : Unshared k := .start h.booted
  obtain ⟨held, hsound⟩ := Unshared.sound (.step hstart rfl hnext)
  have hself := putSlot_proc k 0 k.phys { k.proc 0 with
    hasRegion := true
    region := ⟨regionStart, 4096⟩ }
  generalize putSlot k 0 k.phys _ = k1 at hnext hsound hself
  have hrun : (k1.proc 0).state = .RUNNABLE := by
    rw [hself]
    exact h.running
  have hsz1 : (k1.proc 0).sz = 8192 := by
    rw [hself]
    exact h.sz
  have hacts := hsound.inv.acts (by decide) hrun
  obtain ⟨r, k', hnext', hk'⟩ := Kernel.next_of_holds (c := .sbrk n) rfl (by decide) hrun
    (sysSbrk_spec hacts fun _ _ _ _ _ _ => rfl)
  rw [hsz1, hsz] at hk'
  obtain ⟨hbad, _⟩ | ⟨sz', s', hsz', _, rfl, _⟩ := hk'
  · cases hbad
  · cases hsz'
    refine ⟨k1, _, hnext, hsz1, hnext', ?_, ?_, ?_⟩
    all_goals rw [putSlot_proc, hself]

end Extent

end EAFITos
