/-
The block map of an inode: the places that hold a block number, the blocks of a file in
order, and the bytes that are stored there.
-/
import EAFITos.FsLayout
import EAFITos.Holdings

namespace EAFITos

open Function List

/-- A direct slot of an inode, its slot for the indirect block, or an entry of that block. -/
inductive Place where
  | direct (k : Nat)
  | indirect
  | entry (j : Nat)
  deriving DecidableEq, Repr

/-- The block number in a place. -/
def Place.ref (disk : Disk) (addrs : Nat → Nat) : Place → Nat
  | .direct k => if k < NDIRECT then addrs k else 0
  | .indirect => addrs NDIRECT
  | .entry j =>
    if addrs NDIRECT = 0 ∨ NINDIRECT ≤ j then 0 else (disk (addrs NDIRECT)).uint j

/-- The place of block `bn` of a file. -/
def Place.ofIndex (bn : Nat) : Place :=
  if bn < NDIRECT then .direct bn else .entry (bn - NDIRECT)

/-- Block `bn` of a file, 0 if it has none. -/
def slot (disk : Disk) (addrs : Nat → Nat) (bn : Nat) : Nat := (Place.ofIndex bn).ref disk addrs

/-- The number of blocks of a file of `n` bytes. -/
def blocks (n : Nat) : Nat := (n + BSIZE - 1) / BSIZE

/-- The block numbers in the places of all inodes. -/
def refs (disk : Disk) (heads : Nat → Nat → Nat) (x : Nat × Place) : Nat :=
  x.2.ref disk (heads x.1)

namespace Place

variable {disk disk' : Disk} {addrs addrs' : Nat → Nat} {bn bn' : Nat}

theorem ref_congr (h : ∀ j, addrs NDIRECT ≠ 0 → j < NINDIRECT →
    (disk' (addrs NDIRECT)).uint j = (disk (addrs NDIRECT)).uint j) (x : Place) :
    x.ref disk' addrs = x.ref disk addrs := by
  cases x with
  | direct k => rfl
  | indirect => rfl
  | entry j =>
    rw [ref, ref]
    split
    · rfl
    · next hnot =>
      rw [not_or, Nat.not_le] at hnot
      exact h j hnot.1 hnot.2

theorem ofIndex_inj (h : ofIndex bn = ofIndex bn') : bn = bn' := by
  rw [ofIndex, ofIndex] at h
  split at h <;> split at h
  · exact direct.inj h
  · cases h
  · cases h
  · have hentry := entry.inj h
    omega

theorem ofIndex_ne_indirect (bn : Nat) : ofIndex bn ≠ indirect := by
  rw [ofIndex]
  split <;> nofun

theorem ofIndex_direct (h : bn < NDIRECT) : ofIndex bn = direct bn := if_pos h

theorem ofIndex_entry (h : NDIRECT ≤ bn) : ofIndex bn = entry (bn - NDIRECT) :=
  if_neg (Nat.not_lt.mpr h)

end Place

theorem slot_of_ge {disk : Disk} {addrs : Nat → Nat} {bn : Nat} (h : MAXFILE ≤ bn) :
    slot disk addrs bn = 0 := by
  have hmax : MAXFILE = NDIRECT + NINDIRECT := rfl
  rw [slot, Place.ofIndex_entry (by omega), Place.ref, if_pos (.inr (by omega))]

section Refs

variable {disk : Disk} {heads : Nat → Nat → Nat} {i j k b v : Nat}

/-- A store to a block that is nobody's indirect block. -/
theorem refs_update_block {block : Block} (h : ∀ i, heads i NDIRECT ≠ 0 → heads i NDIRECT ≠ b) :
    refs (update disk b block) heads = refs disk heads := by
  funext x
  refine Place.ref_congr (fun j hne _ => ?_) x.2
  rw [update_of_ne (h x.1 hne)]

theorem refs_direct (hk : k < NDIRECT) :
    refs disk (update heads i (update (heads i) k b)) =
      update (refs disk heads) (i, .direct k) b := by
  have hind : update (heads i) k b NDIRECT = heads i NDIRECT := update_of_ne (Nat.ne_of_gt hk) _ _
  funext ⟨i', x⟩
  rw [refs]
  by_cases hi : i' = i
  · subst hi
    dsimp only
    rw [update_self]
    by_cases hx : x = .direct k
    · subst hx
      rw [update_self, Place.ref, if_pos hk, update_self]
    · rw [update_of_ne fun heq => hx (Prod.mk.inj heq).2, refs]
      cases x with
      | direct k' =>
        have hne : k' ≠ k := fun heq => hx (congrArg _ heq)
        rw [Place.ref, Place.ref, update_of_ne hne]
      | indirect => exact hind
      | entry j => rw [Place.ref, Place.ref, hind]
  · dsimp only
    rw [update_of_ne hi, update_of_ne fun heq => hi (Prod.mk.inj heq).1]
    rfl

/-- An inode gets an indirect block with no entries. -/
theorem refs_indirect (hzero : heads i NDIRECT = 0)
    (hblank : ∀ j, j < NINDIRECT → (disk b).uint j = 0) :
    refs disk (update heads i (update (heads i) NDIRECT b)) =
      update (refs disk heads) (i, .indirect) b := by
  funext ⟨i', x⟩
  rw [refs]
  by_cases hi : i' = i
  · subst hi
    dsimp only
    rw [update_self]
    cases x with
    | direct k =>
      rw [update_of_ne (by simp), refs, Place.ref, Place.ref]
      split
      · next hk => rw [update_of_ne (Nat.ne_of_lt hk)]
      · rfl
    | indirect => rw [update_self, Place.ref, update_self]
    | entry j =>
      rw [update_of_ne (by simp), refs, Place.ref, Place.ref, update_self]
      dsimp only
      rw [if_pos (Or.inl hzero)]
      split
      · rfl
      · next hnot => exact hblank j (by omega)
  · dsimp only
    rw [update_of_ne hi, update_of_ne fun heq => hi (Prod.mk.inj heq).1]
    rfl

/-- An entry of an indirect block is set. -/
theorem refs_entry (hne : heads i NDIRECT ≠ 0) (hj : j < NINDIRECT) (hv : v < 2 ^ 32)
    (hother : ∀ i', i' ≠ i → heads i' NDIRECT ≠ 0 → heads i' NDIRECT ≠ heads i NDIRECT) :
    refs (update disk (heads i NDIRECT) ((disk (heads i NDIRECT)).setUint j v)) heads =
      update (refs disk heads) (i, .entry j) v := by
  funext ⟨i', x⟩
  by_cases hi : i' = i
  · subst hi
    by_cases hx : x = .entry j
    · subst hx
      rw [update_self, refs, Place.ref, if_neg (by dsimp only; omega), update_self]
      exact Block.uint_setUint _ _ hv
    · rw [update_of_ne fun heq => hx (Prod.mk.inj heq).2, refs, refs]
      cases x with
      | direct k => rfl
      | indirect => rfl
      | entry j' =>
        have hne' : j' ≠ j := fun heq => hx (congrArg _ heq)
        dsimp only
        rw [Place.ref, Place.ref, update_self, Block.uint_setUint_of_ne _ _ hne']
  · rw [update_of_ne fun heq => hi (Prod.mk.inj heq).1]
    refine Place.ref_congr (fun j' hnonzero _ => ?_) x
    rw [update_of_ne (hother i' hi hnonzero)]

end Refs

/-! ## The bytes of a file -/

/-- `chunk` written over `bytes` from position `off` on. -/
def splice (bytes chunk : List UInt8) (off : Nat) : List UInt8 :=
  bytes.take off ++ chunk ++ bytes.drop (off + chunk.length)

theorem splice_end (bytes chunk : List UInt8) :
    splice bytes chunk bytes.length = bytes ++ chunk := by
  rw [splice, take_length, drop_of_length_le (Nat.le_add_right _ _), append_nil]

theorem length_splice {bytes chunk : List UInt8} {off : Nat} (h : off ≤ bytes.length) :
    (splice bytes chunk off).length = max bytes.length (off + chunk.length) := by
  rw [splice, length_append, length_append, length_take, length_drop]
  omega

theorem getD_splice {bytes chunk : List UInt8} {off : Nat} (h : off ≤ bytes.length) (x : Nat) :
    (splice bytes chunk off).getD x 0 =
      if off ≤ x ∧ x < off + chunk.length then chunk.getD (x - off) 0 else bytes.getD x 0 := by
  have htake : (bytes.take off).length = off := by
    rw [length_take]
    omega
  simp only [getD_eq_getElem?_getD, splice, append_assoc, getElem?_append, htake,
    getElem?_take, getElem?_drop]
  by_cases hlo : x < off
  · rw [if_pos hlo, if_pos hlo, if_neg (by omega)]
  · rw [if_neg hlo]
    by_cases hhi : x - off < chunk.length
    · rw [if_pos hhi, if_pos (by omega)]
    · rw [if_neg hhi, if_neg (by omega)]
      congr 2
      omega

/-- A file with `nb` blocks that hold `bytes` and, after their end, zeros. -/
structure Stored (disk : Disk) (addrs : Nat → Nat) (nb : Nat) (bytes : List UInt8) : Prop where
  slots : ∀ bn, slot disk addrs bn ≠ 0 ↔ bn < nb
  length : bytes.length ≤ nb * BSIZE
  data : ∀ off, off < nb * BSIZE →
    disk (slot disk addrs (off / BSIZE)) (off % BSIZE) = bytes.getD off 0

namespace Stored

variable {disk disk' : Disk} {addrs addrs' : Nat → Nat} {nb b : Nat} {bytes chunk : List UInt8}

theorem div_lt {off : Nat} (h : off < nb * BSIZE) : off / BSIZE < nb :=
  Nat.div_lt_of_lt_mul (by rwa [Nat.mul_comm])

section

variable (h : Stored disk addrs nb bytes)
include h

theorem nb_le : nb ≤ MAXFILE := by
  by_contra hlt
  exact (h.slots MAXFILE).mpr (by omega) (slot_of_ge le_rfl)

/-- The blocks of the file are where they were, with the same contents. -/
theorem congr (hslot : ∀ bn, slot disk' addrs' bn = slot disk addrs bn)
    (hblock : ∀ bn, bn < nb → disk' (slot disk addrs bn) = disk (slot disk addrs bn)) :
    Stored disk' addrs' nb bytes where
  slots := fun bn => by rw [hslot]; exact h.slots bn
  length := h.length
  data := fun off hoff => by rw [hslot, hblock _ (div_lt hoff)]; exact h.data off hoff

/-- The file gets one more block, of zeros. -/
theorem grow (hb : b ≠ 0)
    (hslot : ∀ bn, slot disk' addrs' bn = if bn = nb then b else slot disk addrs bn)
    (hblock : ∀ bn, bn < nb → disk' (slot disk addrs bn) = disk (slot disk addrs bn))
    (hblank : ∀ x, disk' b x = 0) : Stored disk' addrs' (nb + 1) bytes := by
  refine ⟨fun bn => ?_, ?_, fun off hoff => ?_⟩
  · rw [hslot]
    split
    · next heq => exact iff_of_true hb (by omega)
    · rw [h.slots]
      omega
  · have hlen := h.length
    rw [Nat.add_mul]
    omega
  · rw [hslot]
    have hpos : 0 < BSIZE := by decide
    split
    · next heq =>
      have hlen := h.length
      have hge : nb * BSIZE ≤ off := by
        rw [← heq]
        exact Nat.div_mul_le_self off BSIZE
      rw [hblank, getD_eq_getElem?_getD, getElem?_eq_none (by omega)]
      rfl
    · next hne =>
      have hlt : off / BSIZE < nb := by
        have hle := div_lt hoff
        omega
      have hoff' : off < nb * BSIZE := (Nat.div_lt_iff_lt_mul hpos).mp hlt
      rw [hblock _ hlt]
      exact h.data off hoff'

/-- Bytes are written inside one block of the file. -/
theorem write {off : Nat} (hoff : off ≤ bytes.length) (hlt : off / BSIZE < nb)
    (hfit : off % BSIZE + chunk.length ≤ BSIZE)
    (hslot : ∀ bn, slot disk' addrs bn = slot disk addrs bn)
    (hdisk : disk' = update disk (slot disk addrs (off / BSIZE))
      ((disk (slot disk addrs (off / BSIZE))).storeBytes (off % BSIZE) chunk))
    (hother : ∀ bn, bn < nb → bn ≠ off / BSIZE →
      slot disk addrs bn ≠ slot disk addrs (off / BSIZE)) :
    Stored disk' addrs nb (splice bytes chunk off) := by
  have hmod := Nat.div_add_mod off BSIZE
  have hsize : BSIZE = 1024 := rfl
  refine ⟨fun bn => ?_, ?_, fun x hx => ?_⟩
  · rw [hslot]
    exact h.slots bn
  · have hlen := h.length
    have hblock : off / BSIZE * BSIZE + BSIZE ≤ nb * BSIZE := by
      rw [← Nat.succ_mul]
      exact Nat.mul_le_mul_right _ hlt
    rw [length_splice hoff]
    rw [Nat.mul_comm] at hmod
    omega
  · rw [hslot, getD_splice hoff, ← h.data x hx, hdisk]
    by_cases hsame : x / BSIZE = off / BSIZE
    · rw [hsame, update_self, ByteMem.storeBytes_apply]
      by_cases hin : off ≤ x ∧ x < off + chunk.length
      · have hpos : off % BSIZE ≤ x % BSIZE ∧ x % BSIZE < off % BSIZE + chunk.length := by
          rw [hsize] at hsame hfit ⊢
          omega
        rw [if_pos hin, if_pos hpos]
        congr 1
        rw [hsize] at hsame ⊢
        omega
      · rw [if_neg hin, if_neg]
        rw [hsize] at hsame ⊢
        omega
    · rw [update_of_ne (hother _ (div_lt hx) hsame), if_neg]
      rw [hsize] at hsame hfit
      omega

end

end Stored

end EAFITos
