/-
The image that `mkfs` builds: the inodes on disk carry the block maps and the sizes of the
files, and `ialloc` and `iappend` keep it so.
-/
import EAFITos.MkfsAppend

namespace EAFITos

open Function List Finset Option

namespace Mkfs

variable {s s1 : Mkfs} {content : Nat → List UInt8} {i : Nat} {p : List UInt8}

/-- The block map of each inode in use. -/
def heads (s : Mkfs) (i : Nat) : Nat → Nat :=
  if 1 ≤ i ∧ i < s.freeinode then (s.disk.inode sb i).addrs else fun _ => 0

/-- The files in an image with at most `NINODES` inodes. -/
structure Image (s : Mkfs) (content : Nat → List UInt8) : Prop where
  laid : Laid s.disk s.heads s.freeblock (fun i => blocks (content i).length) content
  indirect : ∀ i, s.heads i NDIRECT ≠ 0 ↔ NDIRECT < blocks (content i).length
  inodes : 1 ≤ s.freeinode ∧ s.freeinode ≤ NINODES
  size : ∀ i, 1 ≤ i → i < s.freeinode → (s.disk.inode sb i).size = (content i).length
  type : ∀ i, 1 ≤ i → i < s.freeinode → (s.disk.inode sb i).type ≠ 0
  super : (s.disk 1).superblock = sb
  total : s.freeblock = nmeta + ∑ i ∈ range s.freeinode, cost (content i).length

theorem iblock_bounds (h : i < 208) : 1 < sb.iblock i ∧ sb.iblock i < sb.bmapstart := by
  have hipb : IPB = 16 := rfl
  have hstart : sb.inodestart = 33 := rfl
  have hbmap : sb.bmapstart = 46 := rfl
  rw [Superblock.iblock, hipb, hstart, hbmap]
  omega

/-- The image with another inode `i`. -/
def putInode (s : Mkfs) (i : Nat) (d : Dinode) : Mkfs :=
  { s with disk := s.disk.setInode sb i d }

theorem winode_eq (s : Mkfs) (h : i < 208) (d : Dinode) :
    s.winode i d = some (s.putInode i d) := by
  obtain ⟨-, hlt⟩ := iblock_bounds h
  have hbmap : sb.bmapstart = 46 := rfl
  have hsize : FSSIZE = 2000 := rfl
  rw [winode, rsect_eq s (by omega), map_some, wsect_disk s (by omega)]
  rfl

theorem rinode_eq (s : Mkfs) (h : i < 208) : s.rinode i = some (s.disk.inode sb i) := by
  obtain ⟨-, hlt⟩ := iblock_bounds h
  have hbmap : sb.bmapstart = 46 := rfl
  have hsize : FSSIZE = 2000 := rfl
  rw [rinode, rsect_eq s (by omega)]
  rfl

/-- A store to a block before the data. -/
theorem Laid.update_meta {disk : Disk} {heads : Nat → Nat → Nat} {fb b : Nat} {nb : Nat → Nat}
    (h : Laid disk heads fb nb content) (hb : b < nmeta) (block : Block) :
    Laid (update disk b block) heads fb nb content := by
  have hlo := h.handed.lo
  have hfiled := h.filed.update_unused (b := b) (fun hused => Nat.not_le.mpr hb hused.1) block
  refine ⟨⟨hfiled.exact, fun c hc => ?_, hlo, h.handed.hi⟩, hfiled.files⟩
  rw [update_of_ne (by omega)]
  exact h.handed.blank c hc

theorem Image.appending (h : Image s content) (hi : 1 ≤ i ∧ i < s.freeinode) :
    Appending s s.heads i (s.disk.inode sb i) content := by
  refine ⟨h.laid, h.indirect, if_pos hi, fun k hk => ?_⟩
  exact (Block.dinode_fits _ _).last k hk

/-- The inode that an append writes back can be stored. -/
theorem Appending.fits {heads : Nat → Nat → Nat} {din : Dinode}
    (h : Appending s heads i din content) :
    ({ din with size := (content i).length } : Dinode).Fits := by
  have hmax : MAXFILE * BSIZE = 274432 := rfl
  have hsize : FSSIZE = 2000 := rfl
  have hlen := h.length_le
  have hhi := h.laid.handed.hi
  have href : ∀ z, refs s.disk heads (i, z) < 2 ^ 32 := by
    intro z
    by_cases hz : refs s.disk heads (i, z) = 0
    · omega
    · have hlt := (h.laid.handed.ref_lt hz).2
      omega
  refine ⟨by dsimp only; omega, fun k => ?_, h.last⟩
  dsimp only
  obtain hk | hk | hk := Nat.lt_trichotomy k NDIRECT
  · have hlt := href (.direct k)
    rw [refs, Place.ref, if_pos hk, h.current] at hlt
    exact hlt
  · subst hk
    have hlt := href .indirect
    rw [refs, Place.ref, h.current] at hlt
    exact hlt
  · rw [h.last k hk]
    decide

theorem SameMeta.inode (h : SameMeta s s1) (hi : i < 208) :
    s1.disk.inode sb i = s.disk.inode sb i := by
  have hlt := (iblock_bounds hi).2
  have hbmap : sb.bmapstart = 46 := rfl
  have hmeta : nmeta = 47 := rfl
  exact Disk.inode_congr (h.disk _ (by omega))

theorem Image.write_back (h : Image s content) (hi : 1 ≤ i ∧ i < s.freeinode) {din1 : Dinode}
    (hdone : Appended s s1 s.heads i (s.disk.inode sb i) din1 content p) :
    Image (s1.putInode i { din1 with size := (content i).length + p.length })
      (update content i (content i ++ p)) := by
  have hnum : NINODES = 200 := rfl
  have hmax := h.inodes.2
  have hfree := hdone.same.freeinode
  obtain ⟨hone, hbmap⟩ := iblock_bounds (show i < 208 by omega)
  have hlen : (update content i (content i ++ p) i).length = (content i).length + p.length := by
    rw [update_self, length_append]
  have hfits := hdone.appending.fits
  rw [hlen] at hfits
  have hinode : ∀ j, 1 ≤ j → j < s.freeinode →
      (s1.disk.setInode sb i { din1 with size := (content i).length + p.length }).inode sb j =
        if j = i then { din1 with size := (content i).length + p.length }
        else s.disk.inode sb j := by
    intro j _ hj
    split
    · next heq =>
      subst heq
      exact Disk.inode_setInode _ _ _ hfits
    · next hne =>
      rw [Disk.inode_setInode_of_ne _ _ _ hne]
      exact hdone.same.inode (by omega)
  have hheads : (s1.putInode i { din1 with size := (content i).length + p.length }).heads =
      update s.heads i din1.addrs := by
    funext j
    rw [heads, putInode]
    dsimp only
    rw [hfree]
    by_cases hji : j = i
    · subst hji
      rw [if_pos hi, hinode j hi.1 hi.2, if_pos rfl, update_self]
    · rw [update_of_ne hji, heads]
      by_cases hj : 1 ≤ j ∧ j < s.freeinode
      · rw [if_pos hj, if_pos hj, hinode j hj.1 hj.2, if_neg hji]
      · rw [if_neg hj, if_neg hj]
  refine ⟨?_, ?_, ?_, fun j hj hlt => ?_, fun j hj hlt => ?_, ?_, ?_⟩
  · rw [hheads, putInode]
    exact hdone.appending.laid.update_meta (Nat.lt_trans hbmap (by decide)) _
  · rw [hheads]
    exact hdone.appending.indirect
  · rw [putInode]
    dsimp only
    rw [hfree]
    exact h.inodes
  · dsimp only [putInode] at hlt ⊢
    rw [hfree] at hlt
    rw [hinode j hj hlt]
    by_cases hji : j = i
    · subst hji
      rw [if_pos rfl, hlen]
    · rw [if_neg hji, update_of_ne hji]
      exact h.size j hj hlt
  · dsimp only [putInode] at hlt ⊢
    rw [hfree] at hlt
    rw [hinode j hj hlt]
    by_cases hji : j = i
    · subst hji
      rw [if_pos rfl, hdone.fields]
      exact h.type j hj hlt
    · rw [if_neg hji]
      exact h.type j hj hlt
  · dsimp only [putInode]
    rw [Disk.setInode_of_ne _ _ (Nat.ne_of_lt hone), hdone.same.disk 1 (by decide)]
    exact h.super
  · have hsum := Tally.sum_change (f := fun j => cost (update content i (content i ++ p) j).length)
      (g := fun j => cost (content j).length) (mem_range.mpr hi.2)
      fun j _ hj => by rw [update_of_ne hj]
    rw [hlen] at hsum
    have hmono := cost_mono (Nat.le_add_right (content i).length p.length)
    have htotal := h.total
    have hblock := hdone.freeblock
    dsimp only [putInode]
    rw [hfree]
    omega

/-- `iappend` appends, or `mkfs` stops. -/
theorem Image.iappend (h : Image s content) (hi : 1 ≤ i ∧ i < s.freeinode) (p : List UInt8) :
    Fits s (content i).length p.length ∧ (∃ s1, s.iappend i p = some s1 ∧
      Image s1 (update content i (content i ++ p)) ∧ s1.freeinode = s.freeinode) ∨
    ¬ Fits s (content i).length p.length ∧ s.iappend i p = none := by
  have hnum : NINODES = 200 := rfl
  have hmax := h.inodes.2
  rw [Mkfs.iappend, rinode_eq s (by omega)]
  dsimp only
  rw [h.size i hi.1 hi.2]
  obtain ⟨hfit, s1, din1, hloop, hdone⟩ | ⟨hfit, hnone⟩ := (h.appending hi).loop rfl p
  · rw [hloop]
    refine .inl ⟨hfit, _, winode_eq s1 (by omega) _, h.write_back hi hdone, ?_⟩
    exact hdone.same.freeinode
  · rw [hnone]
    exact .inr ⟨hfit, rfl⟩

theorem start_disk : start.disk = update (fun _ => zeroes) 1 (zeroes.storeWords 0 sbWord 8) := rfl

theorem image_start : Image start fun _ => [] := by
  have hheads : start.heads = fun _ _ => 0 := by
    funext i
    refine if_neg ?_
    rintro ⟨hlo, hhi⟩
    exact absurd (Nat.lt_of_lt_of_le hhi hlo) (Nat.lt_irrefl _)
  have hmeta : nmeta = 47 := rfl
  refine ⟨⟨⟨⟨?_, ?_, ?_⟩, fun b hb => ?_, Nat.le_refl _, by decide⟩, fun i => ?_⟩, fun i => ?_,
    by decide, ?_, ?_, ?_, rfl⟩
  · intro z hz
    rw [hheads] at hz
    exact absurd (refs_zero _ z) hz
  · exact fun b hb => absurd hb.2 (Nat.not_lt.mpr hb.1)
  · intro z z' hz
    rw [hheads] at hz
    exact absurd (refs_zero _ z) hz
  · change nmeta ≤ b at hb
    rw [start_disk, update_of_ne (by omega)]
  · rw [hheads]
    exact stored_nil _
  · rw [hheads]
    exact iff_of_false (fun h => h rfl) (by decide)
  · exact fun i hlo hhi => absurd (Nat.lt_of_lt_of_le hhi hlo) (Nat.lt_irrefl _)
  · exact fun i hlo hhi => absurd (Nat.lt_of_lt_of_le hhi hlo) (Nat.lt_irrefl _)
  · have hblock : start.disk 1 = zeroes.storeWords 0 sbWord 8 := by
      rw [start_disk, update_self]
    have hword : ∀ k, k < 8 →
        (zeroes.storeWords 0 sbWord 8).loadLE (0 + 4 * k) 4 = sbWord k % 2 ^ 32 := fun k hk =>
      Block.loadLE_storeWords _ _ hk
    rw [hblock, Block.superblock, hword 1 (by decide), hword 2 (by decide), hword 3 (by decide),
      hword 4 (by decide), hword 5 (by decide), hword 6 (by decide), hword 7 (by decide)]
    decide

theorem newInode_fits (type : BitVec 16) : (newInode type).Fits where
  size := Nat.two_pow_pos 32
  addrs := fun _ => Nat.two_pow_pos 32
  last := fun _ _ => rfl

theorem Image.heads_of_free (h : Image s content) (hi : s.freeinode ≤ i) :
    (s.heads i = fun _ => 0) ∧ content i = [] := by
  have hheads : s.heads i = fun _ => 0 := if_neg fun hin => Nat.not_lt.mpr hi hin.2
  refine ⟨hheads, ?_⟩
  have hfile := h.laid.files i
  rw [hheads] at hfile
  have hblocks : ¬ 0 < blocks (content i).length := fun hlt =>
    (hfile.slots 0).mpr hlt (slot_zero _ 0)
  have hlen := hfile.length
  rw [Nat.eq_zero_of_not_pos hblocks, Nat.zero_mul] at hlen
  exact eq_nil_of_length_eq_zero (Nat.eq_zero_of_le_zero hlen)

/-- `ialloc` hands out the next inode, with an empty file. -/
theorem Image.ialloc (h : Image s content) (hroom : s.freeinode < NINODES) (type : BitVec 16)
    (htype : type ≠ 0) :
    ∃ s1, s.ialloc type = some (s1, s.freeinode) ∧ Image s1 content ∧
      s1.freeinode = s.freeinode + 1 := by
  have hnum : NINODES = 200 := rfl
  obtain ⟨hone, hbmap⟩ := iblock_bounds (show s.freeinode < 208 by omega)
  obtain ⟨hfree, hnil⟩ := h.heads_of_free le_rfl
  let s1 : Mkfs := putInode { s with freeinode := s.freeinode + 1 } s.freeinode (newInode type)
  have hinode : ∀ i, s1.disk.inode sb i =
      if i = s.freeinode then newInode type else s.disk.inode sb i := by
    intro i
    split
    · next heq =>
      subst heq
      exact Disk.inode_setInode _ _ _ (newInode_fits type)
    · next hne => exact Disk.inode_setInode_of_ne _ _ _ hne
  have hheads : s1.heads = s.heads := by
    funext i
    by_cases hi : i = s.freeinode
    · subst hi
      rw [hfree, heads, hinode, if_pos rfl]
      exact ite_self _
    · rw [heads, hinode, if_neg hi, heads]
      have hiff : (1 ≤ i ∧ i < s1.freeinode) ↔ (1 ≤ i ∧ i < s.freeinode) := by
        change (1 ≤ i ∧ i < s.freeinode + 1) ↔ _
        omega
      simp only [hiff]
  refine ⟨s1, ?_, ⟨?_, ?_, ?_, fun i hlo hhi => ?_, fun i hlo hhi => ?_, ?_, ?_⟩, rfl⟩
  · rw [Mkfs.ialloc, winode_eq _ (by omega)]
    rfl
  · rw [hheads]
    exact h.laid.update_meta (Nat.lt_trans hbmap (by decide)) _
  · rw [hheads]
    exact h.indirect
  · exact ⟨Nat.succ_pos _, hroom⟩
  · change i < s.freeinode + 1 at hhi
    rw [hinode]
    split
    · next heq =>
      rw [heq, hnil]
      rfl
    · next hne => exact h.size i hlo (by omega)
  · change i < s.freeinode + 1 at hhi
    rw [hinode]
    split
    · exact htype
    · next hne => exact h.type i hlo (by omega)
  · change (s.disk.setInode sb s.freeinode (newInode type) 1).superblock = sb
    rw [Disk.setInode_of_ne _ _ (Nat.ne_of_lt hone)]
    exact h.super
  · change s.freeblock = nmeta + ∑ i ∈ range (s.freeinode + 1), cost (content i).length
    rw [Finset.sum_range_succ, hnil, h.total]
    rfl

end Mkfs

end EAFITos
