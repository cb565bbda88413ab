/-
Files in blocks: every block in use is in one place of one inode, and the blocks of each inode hold
its bytes.  What the stores of a program to a block, a slot or an entry keep of this.
-/
import EAFITos.BlockMap

namespace EAFITos

open Holdings Function

/-- The blocks in use are those of the files, with `nb` blocks for each. -/
structure Filed (disk : Disk) (heads : Nat → Nat → Nat) (used : Nat → Prop) (nb : Nat → Nat)
    (content : Nat → List UInt8) : Prop where
  exact : Exact (refs disk heads) used
  files : ∀ i, Stored disk (heads i) (nb i) (content i)

/-! ## No files -/

theorem slot_zero (disk : Disk) (bn : Nat) : slot disk (fun _ => 0) bn = 0 := by
  rw [slot, Place.ofIndex]
  split
  · rw [Place.ref, ite_self]
  · rw [Place.ref, if_pos (Or.inl rfl)]

theorem stored_nil (disk : Disk) : Stored disk (fun _ => 0) 0 [] where
  slots := fun bn => iff_of_false (fun h => h (slot_zero disk bn)) (Nat.not_lt_zero bn)
  length := Nat.le_refl 0
  data := fun off hoff => absurd hoff (by rw [Nat.zero_mul]; exact Nat.not_lt_zero off)

theorem refs_zero (disk : Disk) (z : Nat × Place) : refs disk (fun _ _ => 0) z = 0 := by
  obtain ⟨i, x⟩ := z
  cases x with
  | direct k => exact ite_self _
  | indirect => rfl
  | entry j => rw [refs, Place.ref, if_pos (Or.inl rfl)]

theorem Filed.empty (disk : Disk) {used : Nat → Prop} (h : ∀ b, ¬ used b) :
    Filed disk (fun _ _ => 0) used (fun _ => 0) fun _ => [] where
  exact := {
    inUse := fun z hz => absurd (refs_zero disk z) hz
    held := fun b hb => absurd hb (h b)
    unique := fun z _ hz => absurd (refs_zero disk z) hz }
  files := fun _ => stored_nil disk

/-! ## Stores -/

/-- A block that no file has yet. -/
structure Spare (disk : Disk) (used : Nat → Prop) (b : Nat) : Prop where
  ne_zero : b ≠ 0
  free : ¬ used b
  blank : ∀ x, disk b x = 0

theorem Block.uint_of_blank {block : Block} (h : ∀ x, block x = 0) (j : Nat) : block.uint j = 0 := by
  have hzero : block = ByteMem.fill block (4 * j) 0 4 := by
    funext y
    rw [ByteMem.fill]
    split
    · exact h y
    · rfl
  rw [hzero]
  exact ByteMem.loadLE_fill_zero _ le_rfl le_rfl

namespace Filed

variable {disk disk' : Disk} {heads heads' : Nat → Nat → Nat} {used used' : Nat → Prop}
  {nb : Nat → Nat} {content : Nat → List UInt8} {b i j k : Nat}

section

variable (h : Filed disk heads used nb content)
include h

theorem congr_used (hused : ∀ c, used' c ↔ used c) :
    Filed disk heads used' nb content := ⟨h.exact.congr hused, h.files⟩

theorem slot_ne_zero {bn : Nat} : slot disk (heads i) bn ≠ 0 ↔ bn < nb i := (h.files i).slots bn

theorem slot_used {bn : Nat} (hbn : bn < nb i) : used (slot disk (heads i) bn) :=
  h.exact.inUse (i, .ofIndex bn) (h.slot_ne_zero.mpr hbn)

theorem indirect_used (hne : heads i NDIRECT ≠ 0) : used (heads i NDIRECT) :=
  h.exact.inUse (i, .indirect) hne

/-- The place of the next block of a file is empty. -/
theorem next_zero (i : Nat) : refs disk heads (i, .ofIndex (nb i)) = 0 :=
  not_not.mp (mt h.slot_ne_zero.mp (Nat.lt_irrefl _))

/-- Two inodes do not share their indirect block. -/
theorem indirect_ne (hne : heads i NDIRECT ≠ 0) (hj : j ≠ i) : heads j NDIRECT ≠ heads i NDIRECT :=
  h.exact.ne (x := (i, .indirect)) (y := (j, .indirect)) hne fun heq => hj (Prod.mk.inj heq).1

/-- A store to a block that is not in use. -/
theorem update_unused (hb : ¬ used b) (block : Block) :
    Filed (update disk b block) heads used nb content := by
  have hrefs : refs (update disk b block) heads = refs disk heads := by
    refine refs_update_block fun i hi heq => hb ?_
    rw [← heq]
    exact h.indirect_used hi
  refine ⟨?_, fun i => (h.files i).congr (fun bn => congrFun hrefs (i, .ofIndex bn)) ?_⟩
  · rw [hrefs]
    exact h.exact
  · intro bn hbn
    refine update_of_ne (fun heq => hb ?_) _ _
    rw [← heq]
    exact h.slot_used hbn

section

variable (hspare : Spare disk used b)
include hspare

/-- The file of `i` gets one more block. -/
theorem grow (hrefs : refs disk' heads' = update (refs disk heads) (i, .ofIndex (nb i)) b)
    (hblock : ∀ i' bn, slot disk (heads i') bn ≠ 0 →
      disk' (slot disk (heads i') bn) = disk (slot disk (heads i') bn))
    (hblank : disk' b = disk b) :
    Filed disk' heads' (fun c => used c ∨ c = b) (update nb i (nb i + 1)) content := by
  refine ⟨?_, fun i' => ?_⟩
  · rw [hrefs]
    exact h.exact.insert (h.next_zero i) hspare.ne_zero hspare.free
  have hfile := h.files i'
  have hkeep : ∀ bn, bn < nb i' → disk' (slot disk (heads i') bn) = disk (slot disk (heads i') bn) :=
    fun bn hbn => hblock i' bn (h.slot_ne_zero.mpr hbn)
  by_cases hi : i' = i
  · subst hi
    rw [update_self]
    refine hfile.grow hspare.ne_zero (fun bn => ?_) hkeep fun x => ?_
    · have hslot := congrFun hrefs (i', .ofIndex bn)
      by_cases hbn : bn = nb i'
      · rw [if_pos hbn]
        rw [hbn, update_self] at hslot
        rw [hbn]
        exact hslot
      · rw [if_neg hbn]
        rw [update_of_ne fun heq => hbn (Place.ofIndex_inj (Prod.mk.inj heq).2)] at hslot
        exact hslot
    · rw [hblank]
      exact hspare.blank x
  · rw [update_of_ne hi]
    refine hfile.congr (fun bn => ?_) hkeep
    have hslot := congrFun hrefs (i', .ofIndex bn)
    rw [update_of_ne fun heq => hi (Prod.mk.inj heq).1] at hslot
    exact hslot

/-- The block goes to a direct slot. -/
theorem direct (hnb : nb i < NDIRECT) :
    Filed disk (update heads i (update (heads i) (nb i) b))
      (fun c => used c ∨ c = b) (update nb i (nb i + 1)) content := by
  refine h.grow hspare ?_ (fun _ _ _ => rfl) rfl
  rw [Place.ofIndex_direct hnb]
  exact refs_direct hnb

/-- The block becomes the indirect block. -/
theorem indirect (hzero : heads i NDIRECT = 0) :
    Filed disk (update heads i (update (heads i) NDIRECT b))
      (fun c => used c ∨ c = b) nb content := by
  have hrefs : refs disk (update heads i (update (heads i) NDIRECT b)) =
      update (refs disk heads) (i, .indirect) b :=
    refs_indirect hzero fun j _ => Block.uint_of_blank hspare.blank j
  refine ⟨?_, fun i' => (h.files i').congr (fun bn => ?_) fun _ _ => rfl⟩
  · rw [hrefs]
    exact h.exact.insert (z := (i, .indirect)) hzero hspare.ne_zero hspare.free
  · have hslot := congrFun hrefs (i', .ofIndex bn)
    rw [update_of_ne fun heq => Place.ofIndex_ne_indirect bn (Prod.mk.inj heq).2] at hslot
    exact hslot

/-- The block goes to an entry of the indirect block. -/
theorem entry (hb : b < 2 ^ 32) (hne : heads i NDIRECT ≠ 0) (hlo : NDIRECT ≤ nb i)
    (hhi : nb i < MAXFILE) :
    Filed (update disk (heads i NDIRECT)
      ((disk (heads i NDIRECT)).setUint (nb i - NDIRECT) b)) heads (fun c => used c ∨ c = b)
      (update nb i (nb i + 1)) content := by
  have hmax : MAXFILE = NDIRECT + NINDIRECT := rfl
  refine h.grow hspare ?_ (fun i' bn hbn => ?_) ?_
  · rw [Place.ofIndex_entry hlo]
    exact refs_entry hne (by omega) hb fun j hj _ => h.indirect_ne hne hj
  · refine update_of_ne ?_ _ _
    exact h.exact.ne (x := (i, .indirect)) (y := (i', .ofIndex bn)) hne fun heq =>
      Place.ofIndex_ne_indirect bn (Prod.mk.inj heq).2
  · refine update_of_ne (fun heq => hspare.free ?_) _ _
    rw [heq]
    exact h.indirect_used hne

end

/-- The block of a file is nobody's indirect block. -/
theorem refs_setData {bn : Nat} (hbn : bn < nb i) (block : Block) :
    refs (update disk (slot disk (heads i) bn) block) heads = refs disk heads := by
  refine refs_update_block fun j hj => ?_
  exact h.exact.ne (x := (i, .ofIndex bn)) (y := (j, .indirect)) (h.slot_ne_zero.mpr hbn) fun heq =>
    Place.ofIndex_ne_indirect bn (Prod.mk.inj heq).2.symm

theorem write {off : Nat} {chunk : List UInt8} (hoff : off ≤ (content i).length)
    (hlt : off / BSIZE < nb i) (hfit : off % BSIZE + chunk.length ≤ BSIZE) :
    Filed (update disk (slot disk (heads i) (off / BSIZE))
      ((disk (slot disk (heads i) (off / BSIZE))).storeBytes (off % BSIZE) chunk)) heads used nb
      (update content i (splice (content i) chunk off)) := by
  have hrefs := h.refs_setData hlt
    ((disk (slot disk (heads i) (off / BSIZE))).storeBytes (off % BSIZE) chunk)
  refine ⟨by rw [hrefs]; exact h.exact, fun i' => ?_⟩
  have hslot := fun bn => congrFun hrefs (i', .ofIndex bn)
  have hother : ∀ bn, (i', bn) ≠ (i, off / BSIZE) →
      slot disk (heads i') bn ≠ slot disk (heads i) (off / BSIZE) := by
    intro bn hne
    refine h.exact.ne (x := (i, .ofIndex (off / BSIZE))) (y := (i', .ofIndex bn))
      (h.slot_ne_zero.mpr hlt) ?_
    intro heq
    obtain ⟨rfl, hplace⟩ := Prod.mk.inj heq
    exact hne (congrArg _ (Place.ofIndex_inj hplace))
  by_cases hi : i' = i
  · subst hi
    rw [update_self]
    refine (h.files i').write hoff hlt hfit hslot rfl fun bn _ hne => hother bn ?_
    exact fun heq => hne (Prod.mk.inj heq).2
  · rw [update_of_ne hi]
    refine (h.files i').congr hslot fun bn _ => update_of_ne ?_ _ _
    exact hother bn fun heq => hi (Prod.mk.inj heq).1

end

end Filed

end EAFITos
