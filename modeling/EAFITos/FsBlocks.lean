/-
`balloc` and `bmap` keep the volume in order: the bitmap marks the blocks in front of the data and
those of the files, and a file has its first blocks and no others.
-/
import EAFITos.Filed
import EAFITos.Fs

namespace EAFITos

open Function List Prog

variable {k bi : Nat}

/-- The blocks in front of the data. -/
def Superblock.nmeta (sb : Superblock) : Nat := sb.size - sb.nblocks

/-- The inode blocks, the bitmap and the data follow each other. -/
structure Superblock.Wf (sb : Superblock) : Prop where
  inodes : ∀ i, i < sb.ninodes → sb.iblock i < sb.bmapstart
  start : sb.bmapstart < sb.nmeta
  bitmap : ∀ b, b < sb.size → sb.bblock b < sb.nmeta
  size : sb.size < 2 ^ 32

/-- The bit of a block. -/
def Disk.marked (disk : Disk) (sb : Superblock) (b : Nat) : Bool :=
  (disk (sb.bblock b)).bit (b % BPB)

/-- A data block whose bit is set. -/
def InUse (sb : Superblock) (disk : Disk) (b : Nat) : Prop :=
  sb.nmeta ≤ b ∧ b < sb.size ∧ disk.marked sb b = true

/-- The bitmap and the files agree. -/
structure Volume (sb : Superblock) (disk : Disk) (heads : Nat → Nat → Nat) (nb : Nat → Nat)
    (full : Nat → List UInt8) : Prop where
  filed : Filed disk heads (InUse sb disk) nb full
  reserved : ∀ b, b < sb.nmeta → disk.marked sb b = true

variable {sb : Superblock} {disk : Disk} {b c : Nat}

theorem bblock_le (sb : Superblock) (b : Nat) : sb.bmapstart ≤ sb.bblock b := Nat.le_add_left _ _

theorem nmeta_le (sb : Superblock) : sb.nmeta ≤ sb.size := Nat.sub_le _ _

/-- The bitmap with one more bit set. -/
theorem marked_setBit : Disk.marked (update disk (sb.bblock b)
    ((disk (sb.bblock b)).setBit (b % BPB))) sb c = (decide (c = b) || disk.marked sb c) := by
  rw [Disk.marked, Disk.marked]
  by_cases hblock : sb.bblock c = sb.bblock b
  · have hdiv : c / BPB = b / BPB := Nat.add_right_cancel hblock
    have hiff : c % BPB = b % BPB ↔ c = b := by
      constructor
      · intro hmod
        rw [← Nat.div_add_mod c BPB, ← Nat.div_add_mod b BPB, hdiv, hmod]
      · exact congrArg (· % BPB)
    rw [hblock, update_self, Block.bit_setBit, decide_eq_decide.mpr hiff]
  · have hne : c ≠ b := fun heq => hblock (congrArg _ heq)
    rw [update_of_ne hblock, decide_eq_false hne, Bool.false_or]

/-- A store outside of the bitmap. -/
theorem marked_update {a : Nat} (h : sb.bblock c ≠ a) (block : Block) :
    Disk.marked (update disk a block) sb c = disk.marked sb c := by
  rw [Disk.marked, update_of_ne h, Disk.marked]

namespace Fs

variable {s : Fs}

/-! ## `balloc` -/

/-- What `balloc` does: it takes the first block whose bit is clear. -/
inductive Balloc (sb : Superblock) (s : Fs) : Nat → Fs → Prop
  | full : (∀ b, b < sb.size → s.disk.marked sb b = true) → Balloc sb s 0 s
  | found (b : Nat) : b < sb.size → s.disk.marked sb b = false →
      (∀ c, c < b → s.disk.marked sb c = true) →
      Balloc sb s b
        { disk := update (update s.disk (sb.bblock b)
            ((s.disk (sb.bblock b)).setBit (b % BPB))) b fun _ => 0
          logged := b :: sb.bblock b :: s.logged }

theorem bblock_group (h : bi < BPB) : sb.bblock (k * BPB + bi) = sb.bblock (k * BPB) := by
  have hpos : 0 < BPB := by decide
  rw [Superblock.bblock, Superblock.bblock, Nat.mul_comm, Nat.mul_add_div hpos,
    Nat.mul_div_cancel_left _ hpos, Nat.div_eq_of_lt h, Nat.add_zero]

theorem marked_group (h : bi < BPB) :
    disk.marked sb (k * BPB + bi) = (disk (sb.bblock (k * BPB))).bit bi := by
  rw [Disk.marked, bblock_group h, Nat.mul_comm, Nat.mul_add_mod, Nat.mod_eq_of_lt h]

/-- The search in one bitmap block. -/
theorem firstClear_some (h : firstClear sb (k * BPB) (s.disk (sb.bblock (k * BPB))) = some bi) :
    bi < BPB ∧ k * BPB + bi < sb.size ∧ s.disk.marked sb (k * BPB + bi) = false ∧
      ∀ j, j < bi → s.disk.marked sb (k * BPB + j) = true := by
  rw [firstClear_def] at h
  obtain ⟨hfound, hfirst⟩ := find?_range_eq_some.mp h
  obtain ⟨hmem, hbefore⟩ := hfirst
  have hbi := mem_range.mp hmem
  rw [Bool.and_eq_true, decide_eq_true_eq, Bool.not_eq_true'] at hfound
  refine ⟨hbi, hfound.1, (marked_group hbi).trans hfound.2, fun j hj => ?_⟩
  have hclear := hbefore j hj
  rw [marked_group (Nat.lt_trans hj hbi)]
  simp only [Bool.not_and, Bool.not_not, Bool.or_eq_true, Bool.not_eq_true', decide_eq_false_iff_not]
    at hclear
  exact hclear.resolve_left (by omega)

theorem firstClear_none (h : firstClear sb (k * BPB) (s.disk (sb.bblock (k * BPB))) = none)
    (hbi : bi < BPB) (hlt : k * BPB + bi < sb.size) : s.disk.marked sb (k * BPB + bi) = true := by
  rw [firstClear_def] at h
  have hnone := find?_eq_none.mp h bi (mem_range.mpr hbi)
  rw [marked_group hbi]
  simpa [hlt] using hnone

/-- One round of the loop. -/
theorem holds_ballocFrom {rest : List Nat} {post : Nat → Fs → Prop}
    (hfound : ∀ bi, firstClear sb b (s.disk (sb.bblock b)) = some bi → post (b + bi)
      { disk := update (update s.disk (sb.bblock b)
          ((s.disk (sb.bblock b)).setBit bi)) (b + bi) fun _ => 0
        logged := (b + bi) :: sb.bblock b :: s.logged })
    (hnext : firstClear sb b (s.disk (sb.bblock b)) = none →
      (ballocFrom sb rest).Holds s post fun _ => False) :
    (ballocFrom sb (b :: rest)).Holds s post fun _ => False := by
  rw [ballocFrom, holds_bind, bread, holds_read]
  cases hfirst : firstClear sb b (s.disk (sb.bblock b)) with
  | some bi =>
    simp only [modify, logWrite, bzero, holds_bind, holds_update, holds_pure]
    exact hfound bi hfirst
  | none => exact hnext hfirst

/-- The loop from group `k` on, with everything before marked. -/
theorem ballocFrom_spec (k n : Nat) (hn : sb.size ≤ (k + n) * BPB)
    (hbefore : ∀ c, c < k * BPB → c < sb.size → s.disk.marked sb c = true) :
    (ballocFrom sb ((range' k n).map (· * BPB))).Holds s (Balloc sb s) fun _ => False := by
  induction n generalizing k with
  | zero =>
    exact (holds_pure 0).mpr (.full fun b hb => hbefore b (Nat.lt_of_lt_of_le hb hn) hb)
  | succ n ih =>
    rw [range'_succ, map_cons]
    refine holds_ballocFrom (fun bi hfirst => ?_) fun hfirst => ?_
    · obtain ⟨hbi, hsize, hclear, hmarked⟩ := firstClear_some hfirst
      have hall : ∀ c, c < k * BPB + bi → s.disk.marked sb c = true := by
        intro c hc
        by_cases hlt : c < k * BPB
        · exact hbefore c hlt (by omega)
        · have hmark := hmarked (c - k * BPB) (by omega)
          rwa [Nat.add_sub_cancel' (Nat.not_lt.mp hlt)] at hmark
      have hballoc : Balloc sb s _ _ := .found _ hsize hclear hall
      have hmod : (k * BPB + bi) % BPB = bi := by
        rw [Nat.mul_comm, Nat.mul_add_mod, Nat.mod_eq_of_lt hbi]
      rw [bblock_group hbi, hmod] at hballoc
      exact hballoc
    · have hnext : ∀ c, c < (k + 1) * BPB → c < sb.size → s.disk.marked sb c = true := by
        intro c hc hsize
        by_cases hlt : c < k * BPB
        · exact hbefore c hlt hsize
        · have hmark := firstClear_none hfirst (show c - k * BPB < BPB by rw [Nat.succ_mul] at hc; omega)
          rw [Nat.add_sub_cancel' (Nat.not_lt.mp hlt)] at hmark
          exact hmark hsize
      exact ih (k + 1) (by rw [Nat.add_right_comm]; exact hn) hnext

theorem balloc_spec (sb : Superblock) (s : Fs) :
    (balloc sb).Holds s (Balloc sb s) fun _ => False := by
  have hpos : 0 < BPB := by decide
  have hgroups := Nat.div_add_mod (sb.size + BPB - 1) BPB
  have hmod := Nat.mod_lt (sb.size + BPB - 1) hpos
  rw [balloc, groups, range_eq_range']
  refine ballocFrom_spec 0 _ ?_ fun c hc => ?_
  · rw [Nat.zero_add, Nat.mul_comm]
    omega
  · rw [Nat.zero_mul] at hc
    cases hc

end Fs

/-! ## The volume with a block that has no place yet -/

/-- The bit of `b` is set, and no file has the block. -/
structure SparedBlock (sb : Superblock) (disk : Disk) (heads : Nat → Nat → Nat) (nb : Nat → Nat)
    (full : Nat → List UInt8) (b : Nat) : Prop where
  filed : Filed disk heads (fun c => InUse sb disk c ∧ c ≠ b) nb full
  inUse : InUse sb disk b
  blank : ∀ x, disk b x = 0
  reserved : ∀ c, c < sb.nmeta → disk.marked sb c = true

/-- No block is left. -/
def Full (sb : Superblock) (disk : Disk) : Prop := ∀ b, b < sb.size → disk.marked sb b = true

section Volume

variable {heads heads' : Nat → Nat → Nat} {nb nb' : Nat → Nat} {full : Nat → List UInt8}
  {s s' : Fs} {disk' : Disk} {i : Nat}

theorem SparedBlock.spare (h : SparedBlock sb disk heads nb full b) (hwf : sb.Wf) :
    Spare disk (fun c => InUse sb disk c ∧ c ≠ b) b where
  ne_zero := by
    have hstart := hwf.start
    have hle := h.inUse.1
    omega
  free := fun hused => hused.2 rfl
  blank := h.blank

/-- The block has got its place. -/
theorem SparedBlock.volume (h : SparedBlock sb disk heads nb full b)
    (hfiled : Filed disk' heads' (fun c => (InUse sb disk c ∧ c ≠ b) ∨ c = b) nb' full)
    (hmarked : ∀ c, c < sb.size → disk'.marked sb c = disk.marked sb c) :
    Volume sb disk' heads' nb' full where
  filed := by
    refine hfiled.congr_used fun c => ?_
    constructor
    · rintro ⟨hlo, hhi, hmark⟩
      rw [hmarked c hhi] at hmark
      by_cases hc : c = b
      · exact .inr hc
      · exact .inl ⟨⟨hlo, hhi, hmark⟩, hc⟩
    · rintro (⟨⟨hlo, hhi, hmark⟩, -⟩ | rfl)
      · exact ⟨hlo, hhi, by rw [hmarked c hhi]; exact hmark⟩
      · exact ⟨h.inUse.1, h.inUse.2.1, by rw [hmarked c h.inUse.2.1]; exact h.inUse.2.2⟩
  reserved := fun c hc => by
    rw [hmarked c (Nat.lt_of_lt_of_le hc (nmeta_le sb))]
    exact h.reserved c hc

/-- `balloc` finds a data block, or all of them are marked. -/
theorem Volume.balloc (h : Volume sb s.disk heads nb full) (hwf : sb.Wf)
    (hballoc : Fs.Balloc sb s b s') :
    (b = 0 ∧ s' = s ∧ Full sb s.disk) ∨ (SparedBlock sb s'.disk heads nb full b ∧ b ∈ s'.logged ∧
        ∀ c, c < sb.bmapstart → s'.disk c = s.disk c) := by
  cases hballoc with
  | full hfull => exact .inl ⟨rfl, rfl, hfull⟩
  | found b hsize hclear _ =>
    have hlo : sb.nmeta ≤ b := by
      by_contra hlt
      rw [h.reserved b (Nat.not_le.mp hlt)] at hclear
      cases hclear
    have hbblock := hwf.bitmap b hsize
    have hmarked : ∀ c, c < sb.size → Disk.marked (update (update s.disk
        (sb.bblock b) ((s.disk (sb.bblock b)).setBit (b % BPB))) b fun _ => 0) sb c =
        (decide (c = b) || s.disk.marked sb c) := by
      intro c hc
      have hlt := hwf.bitmap c hc
      rw [marked_update (by omega), marked_setBit]
    have hfree : ¬ InUse sb s.disk b := by
      rintro ⟨-, -, hmark⟩
      rw [hmark] at hclear
      cases hclear
    have hfiled := (h.filed.update_unused (b := sb.bblock b)
      (fun hused => Nat.not_le.mpr hbblock hused.1)
      ((s.disk (sb.bblock b)).setBit (b % BPB))).update_unused hfree fun _ => 0
    refine .inr ⟨⟨hfiled.congr_used fun c => ?_, ⟨hlo, hsize, ?_⟩, fun x => ?_, fun c hc => ?_⟩,
      mem_cons_self, fun c hc => ?_⟩
    · constructor
      · rintro ⟨⟨hlo', hhi, hmark⟩, hne⟩
        rw [hmarked c hhi, decide_eq_false hne, Bool.false_or] at hmark
        exact ⟨hlo', hhi, hmark⟩
      · rintro ⟨hlo', hhi, hmark⟩
        refine ⟨⟨hlo', hhi, by rw [hmarked c hhi, hmark, Bool.or_true]⟩, ?_⟩
        rintro rfl
        exact hfree ⟨hlo', hhi, hmark⟩
    · rw [hmarked b hsize, decide_eq_true rfl, Bool.true_or]
    · dsimp only
      rw [update_self]
    · rw [hmarked c (Nat.lt_of_lt_of_le hc (nmeta_le sb)), h.reserved c hc, Bool.or_true]
    · have hle := bblock_le sb b
      have hstart := hwf.start
      dsimp only
      rw [update_of_ne (by omega), update_of_ne (by omega)]

theorem Volume.write (h : Volume sb disk heads nb full) (hwf : sb.Wf) {off : Nat}
    {chunk : List UInt8} (hoff : off ≤ (full i).length) (hlt : off / BSIZE < nb i)
    (hfit : off % BSIZE + chunk.length ≤ BSIZE) :
    Volume sb (update disk (slot disk (heads i) (off / BSIZE))
      ((disk (slot disk (heads i) (off / BSIZE))).storeBytes (off % BSIZE) chunk)) heads nb
      (update full i (splice (full i) chunk off)) := by
  have hge := (h.filed.slot_used hlt).1
  have hmarked : ∀ c, c < sb.size → Disk.marked (update disk (slot disk (heads i) (off / BSIZE))
      ((disk (slot disk (heads i) (off / BSIZE))).storeBytes (off % BSIZE) chunk)) sb c =
      disk.marked sb c := by
    intro c hc
    have hbblock := hwf.bitmap c hc
    exact marked_update (by omega) _
  refine ⟨(h.filed.write hoff hlt hfit).congr_used fun c => ?_, fun c hc => ?_⟩
  · refine and_congr_right fun _ => and_congr_right fun hc => ?_
    rw [hmarked c hc]
  · rw [hmarked c (Nat.lt_of_lt_of_le hc (nmeta_le sb))]
    exact h.reserved c hc

/-- A store to a block in front of the bitmap. -/
theorem Volume.update_inode (h : Volume sb disk heads nb full) (hwf : sb.Wf) {a : Nat}
    (ha : a < sb.bmapstart) (block : Block) :
    Volume sb (update disk a block) heads nb full := by
  have hstart := hwf.start
  have hmarked : ∀ c, Disk.marked (update disk a block) sb c = disk.marked sb c := by
    intro c
    have hle := bblock_le sb c
    exact marked_update (by omega) _
  refine ⟨(h.filed.update_unused (fun hused => ?_) block).congr_used fun c => ?_, fun c hc => ?_⟩
  · have hge := hused.1
    omega
  · rw [InUse, InUse, hmarked]
  · rw [hmarked]
    exact h.reserved c hc

end Volume

/-! ## `bmap` -/

/-- The inode `i` has got other addresses, and with them `n` blocks. -/
structure FileGrown (sb : Superblock) (heads : Nat → Nat → Nat) (nb : Nat → Nat)
    (full : Nat → List UInt8) (ip : Inode) (s : Fs) (ip' : Inode) (s' : Fs) (n : Nat) : Prop where
  volume : Volume sb s'.disk (update heads ip.inum ip'.addrs)
    (update nb ip.inum n) full
  same : ip' = { ip with addrs := ip'.addrs }
  last : ∀ k, NDIRECT < k → ip'.addrs k = ip.addrs k
  before : ∀ b, b < sb.bmapstart → s'.disk b = s.disk b

section FileGrown

variable {heads : Nat → Nat → Nat} {nb : Nat → Nat} {full : Nat → List UInt8} {ip ip' : Inode}
  {s s' : Fs} {n : Nat}

/-- The inode as it is. -/
theorem FileGrown.refl (h : Volume sb s.disk heads nb full) (hip : ip.addrs = heads ip.inum) :
    FileGrown sb heads nb full ip s ip s (nb ip.inum) where
  volume := by
    rw [hip, update_eq_self, update_eq_self]
    exact h
  same := rfl
  last := fun _ _ => rfl
  before := fun _ _ => rfl

theorem FileGrown.trans {m : Nat} {ip'' : Inode} {s'' : Fs} {full' : Nat → List UInt8}
    (h : FileGrown sb heads nb full ip s ip' s' m)
    (h' : FileGrown sb (update heads ip.inum ip'.addrs) (update nb ip.inum m) full'
      ip' s' ip'' s'' n) : FileGrown sb heads nb full' ip s ip'' s'' n := by
  have hinum : ip'.inum = ip.inum := by rw [h.same]
  refine ⟨?_, ?_, fun k hk => (h'.last k hk).trans (h.last k hk), fun b hb =>
    (h'.before b hb).trans (h.before b hb)⟩
  · have hvolume := h'.volume
    rw [hinum, update_idem, update_idem] at hvolume
    exact hvolume
  · rw [h'.same, h.same]

end FileGrown

namespace Fs

variable {heads : Nat → Nat → Nat} {nb : Nat → Nat} {full : Nat → List UInt8} {ip ip' : Inode}
  {s s' : Fs} {bn n : Nat}

theorem slot_direct (h : bn < NDIRECT) (disk : Disk) (addrs : Nat → Nat) :
    slot disk addrs bn = addrs bn := by
  rw [slot, Place.ofIndex_direct h, Place.ref, if_pos h]

theorem slot_entry (hlo : NDIRECT ≤ bn) (hhi : bn < MAXFILE) {addrs : Nat → Nat}
    (hne : addrs NDIRECT ≠ 0) (disk : Disk) :
    slot disk addrs bn = (disk (addrs NDIRECT)).uint (bn - NDIRECT) := by
  have hmax : MAXFILE = NDIRECT + NINDIRECT := rfl
  rw [slot, Place.ofIndex_entry hlo, Place.ref, if_neg (by omega)]

theorem slot_no_indirect (hlo : NDIRECT ≤ bn) {addrs : Nat → Nat} (hzero : addrs NDIRECT = 0)
    (disk : Disk) : slot disk addrs bn = 0 := by
  rw [slot, Place.ofIndex_entry hlo, Place.ref, if_pos (.inl hzero)]

/-- `bmap` of a block that the file has. -/
theorem bmap_slot (sb : Superblock) (h : slot s.disk ip.addrs bn ≠ 0) {post : Inode × Nat → Fs → Prop}
    (hpost : post (ip, slot s.disk ip.addrs bn) s) :
    (bmap sb ip bn).Holds s post fun _ => False := by
  have hmax : MAXFILE = NDIRECT + NINDIRECT := rfl
  have hlt : bn < MAXFILE := by
    by_contra hge
    exact h (slot_of_ge (Nat.not_lt.mp hge))
  rw [bmap]
  by_cases hdirect : bn < NDIRECT
  · rw [slot_direct hdirect] at h hpost
    rw [if_pos hdirect, bmapSlot, if_neg h]
    exact (holds_pure _).mpr hpost
  · have hne : ip.addrs NDIRECT ≠ 0 := fun hzero =>
      h (slot_no_indirect (Nat.not_lt.mp hdirect) hzero s.disk)
    rw [slot_entry (Nat.not_lt.mp hdirect) hlt hne] at h hpost
    rw [if_neg hdirect, if_pos (by omega), bmapSlot, if_neg hne, holds_bind, holds_pure]
    dsimp only
    rw [if_neg hne, holds_bind, bmapEntry, holds_bind, bread, holds_read, if_neg h]
    exact (holds_pure _).mpr ((holds_pure _).mpr hpost)

section

variable (hwf : sb.Wf) (h : Volume sb s.disk heads nb full) (hip : ip.addrs = heads ip.inum)
include hwf h hip

theorem bmapSlot_direct (hbn : bn = nb ip.inum) (hdirect : bn < NDIRECT) :
    (bmapSlot sb ip bn).Holds s (fun r s' =>
      (r.2 = 0 ∧ r.1 = ip ∧ s' = s ∧ Full sb s.disk) ∨
      (r.2 ≠ 0 ∧ slot s'.disk r.1.addrs bn = r.2 ∧ r.2 ∈ s'.logged ∧
        FileGrown sb heads nb full ip s r.1 s' (bn + 1)))
      fun _ => False := by
  have hzero : ip.addrs bn = 0 := by
    rw [← slot_direct hdirect s.disk ip.addrs, hip]
    exact not_not.mp (mt h.filed.slot_ne_zero.mp (by omega))
  rw [bmapSlot, if_pos hzero]
  refine (balloc_spec sb s).bind fun b s' hballoc => ?_
  rcases h.balloc hwf hballoc with ⟨rfl, rfl, hfull⟩ | ⟨hspared, hlogged, hbefore⟩
  · exact (holds_pure _).mpr (.inl ⟨rfl, rfl, rfl, hfull⟩)
  · have hspare := hspared.spare hwf
    rw [if_neg hspare.ne_zero]
    refine (holds_pure _).mpr (.inr ⟨hspare.ne_zero, ?_, hlogged, ?_, rfl, fun k hk => ?_, hbefore⟩)
    · rw [slot_direct hdirect]
      exact update_self ..
    · have hfiled := hspared.filed.direct (i := ip.inum) hspare (by omega)
      rw [← hip, ← hbn] at hfiled
      exact hspared.volume hfiled fun _ _ => rfl
    · exact update_of_ne (by omega) _ _

/-- The indirect block, with a new one if there is none. -/
theorem bmapSlot_indirect : (bmapSlot sb ip NDIRECT).Holds s (fun r s' =>
      (r.2 = 0 ∧ r.1 = ip ∧ s' = s ∧ Full sb s.disk) ∨
      (r.2 ≠ 0 ∧ r.1.addrs NDIRECT = r.2 ∧ FileGrown sb heads nb full ip s r.1 s' (nb ip.inum)))
      fun _ => False := by
  rw [bmapSlot]
  by_cases hzero : ip.addrs NDIRECT = 0
  · rw [if_pos hzero]
    refine (balloc_spec sb s).bind fun b s' hballoc => ?_
    rcases h.balloc hwf hballoc with ⟨rfl, rfl, hfull⟩ | ⟨hspared, -, hbefore⟩
    · exact (holds_pure _).mpr (.inl ⟨rfl, rfl, rfl, hfull⟩)
    · have hspare := hspared.spare hwf
      rw [if_neg hspare.ne_zero]
      refine (holds_pure _).mpr (.inr ⟨hspare.ne_zero, ?_, ?_, rfl, fun k hk => ?_, hbefore⟩)
      · exact update_self NDIRECT b ip.addrs
      · have hfiled := hspared.filed.indirect (i := ip.inum) hspare (by rw [← hip]; exact hzero)
        rw [← hip] at hfiled
        rw [update_eq_self]
        exact hspared.volume hfiled fun _ _ => rfl
      · exact update_of_ne (by omega) _ _
  · rw [if_neg hzero]
    exact (holds_pure _).mpr (.inr ⟨hzero, rfl, FileGrown.refl h hip⟩)

theorem bmapEntry_next (hbn : bn = nb ip.inum) (hlo : NDIRECT ≤ bn) (hhi : bn < MAXFILE)
    (hne : ip.addrs NDIRECT ≠ 0) :
    (bmapEntry sb (ip.addrs NDIRECT) (bn - NDIRECT)).Holds s (fun addr s' =>
      (addr = 0 ∧ s' = s ∧ Full sb s.disk) ∨
      (addr ≠ 0 ∧ slot s'.disk ip.addrs bn = addr ∧ addr ∈ s'.logged ∧
        FileGrown sb heads nb full ip s ip s' (bn + 1)))
      fun _ => False := by
  have hzero : (s.disk (ip.addrs NDIRECT)).uint (bn - NDIRECT) = 0 := by
    rw [← slot_entry hlo hhi hne, hip]
    exact not_not.mp (mt h.filed.slot_ne_zero.mp (by omega))
  have hused := h.filed.indirect_used (i := ip.inum) (by rw [← hip]; exact hne)
  rw [← hip] at hused
  rw [bmapEntry, holds_bind, bread, holds_read, if_pos hzero]
  refine (balloc_spec sb s).bind fun b s' hballoc => ?_
  rcases h.balloc hwf hballoc with ⟨rfl, rfl, hfull⟩ | ⟨hspared, hlogged, hbefore⟩
  · exact (holds_pure _).mpr (.inl ⟨rfl, rfl, hfull⟩)
  · have hspare := hspared.spare hwf
    have hsize := hspared.inUse.2.1
    have hb32 : b < 2 ^ 32 := Nat.lt_trans hsize hwf.size
    have hfiled := hspared.filed.entry (i := ip.inum) hspare hb32
      (by rw [← hip]; exact hne) (by omega) (by omega)
    rw [← hip, ← hbn] at hfiled
    rw [holds_bind, Prog.when, if_pos hspare.ne_zero]
    simp only [modify, logWrite, holds_bind, holds_update, holds_pure]
    refine .inr ⟨hspare.ne_zero, ?_, mem_cons_of_mem _ hlogged, ?_, rfl, fun _ _ => rfl,
      fun c hc => ?_⟩
    · rw [slot_entry hlo hhi hne, update_self]
      exact Block.uint_setUint _ _ hb32
    · rw [hip, update_eq_self, ← hip]
      refine hspared.volume hfiled fun c hc => marked_update ?_ _
      have hlt := hwf.bitmap c hc
      have hge := hused.1
      omega
    · have hstart := hwf.start
      have hge := hused.1
      dsimp only
      rw [update_of_ne (by omega)]
      exact hbefore c hc

end

/-- What `bmap` does for the blocks of a file and the one behind them. -/
inductive Bmap (sb : Superblock) (heads : Nat → Nat → Nat) (nb : Nat → Nat)
    (full : Nat → List UInt8) (ip : Inode) (bn : Nat) (s : Fs) : Inode × Nat → Fs → Prop
  | found : bn < nb ip.inum → Bmap sb heads nb full ip bn s (ip, slot s.disk ip.addrs bn) s
  | added {ip' : Inode} {s' : Fs} : bn = nb ip.inum → slot s'.disk ip'.addrs bn ≠ 0 →
      slot s'.disk ip'.addrs bn ∈ s'.logged → FileGrown sb heads nb full ip s ip' s' (bn + 1) →
      Bmap sb heads nb full ip bn s (ip', slot s'.disk ip'.addrs bn) s'
  | failed {ip' : Inode} {s' : Fs} : bn = nb ip.inum → Full sb s'.disk →
      FileGrown sb heads nb full ip s ip' s' bn → Bmap sb heads nb full ip bn s (ip', 0) s'

/-- Either there is a block for the index, or there is none left on the disk. -/
theorem Bmap.cases {r : Inode × Nat} (h : Bmap sb heads nb full ip bn s r s')
    (hvolume : Volume sb s.disk heads nb full) (hip : ip.addrs = heads ip.inum) :
    (r.2 = 0 ∧ bn = nb ip.inum ∧ Full sb s'.disk ∧ FileGrown sb heads nb full ip s r.1 s' bn) ∨
      (r.2 ≠ 0 ∧ slot s'.disk r.1.addrs bn = r.2 ∧ (nb ip.inum ≤ bn → r.2 ∈ s'.logged) ∧
        FileGrown sb heads nb full ip s r.1 s' (max (nb ip.inum) (bn + 1))) := by
  cases h with
  | found hlt =>
    refine .inr ⟨?_, rfl, fun hle => absurd hlt (by omega), ?_⟩
    · rw [hip]
      exact hvolume.filed.slot_ne_zero.mpr hlt
    · rw [Nat.max_eq_left hlt]
      exact .refl hvolume hip
  | added heq hne hlogged hgrown =>
    refine .inr ⟨hne, rfl, fun _ => hlogged, ?_⟩
    rw [Nat.max_eq_right (by omega)]
    exact hgrown
  | failed heq hfull hgrown => exact .inl ⟨rfl, heq, hfull, hgrown⟩

theorem bmap_spec (hwf : sb.Wf) (h : Volume sb s.disk heads nb full)
    (hip : ip.addrs = heads ip.inum) (hbn : bn ≤ nb ip.inum) (hmax : bn < MAXFILE) :
    (bmap sb ip bn).Holds s (Bmap sb heads nb full ip bn s) fun _ => False := by
  have hmaxfile : MAXFILE = NDIRECT + NINDIRECT := rfl
  rcases Nat.lt_or_eq_of_le hbn with hlt | heq
  · refine bmap_slot sb ?_ (.found hlt)
    rw [hip]
    exact h.filed.slot_ne_zero.mpr hlt
  rw [bmap]
  by_cases hdirect : bn < NDIRECT
  · rw [if_pos hdirect]
    refine (bmapSlot_direct hwf h hip heq hdirect).imp ?_
    rintro ⟨ip', addr⟩ s' (⟨haddr, hip', hs', hfull⟩ | ⟨hne, hslot, hlogged, hgrown⟩)
    · dsimp only at haddr hip'
      subst haddr hip' hs'
      exact .failed heq hfull (by rw [heq]; exact FileGrown.refl h hip)
    · dsimp only at hne hslot hlogged
      subst hslot
      exact .added heq hne hlogged hgrown
  · rw [if_neg hdirect, if_pos (by omega)]
    refine (bmapSlot_indirect hwf h hip).bind ?_
    rintro ⟨ip', ind⟩ s' (⟨hind, hip', hs', hfull⟩ | ⟨hne, hind, hgrown⟩)
    · dsimp only at hind hip'
      subst hind hip' hs'
      dsimp only
      rw [if_pos rfl]
      exact (holds_pure _).mpr (.failed heq hfull (by rw [heq]; exact FileGrown.refl h hip))
    · dsimp only at hne hind hgrown
      subst hind
      have hinum : ip'.inum = ip.inum := by rw [hgrown.same]
      dsimp only
      rw [if_neg hne]
      refine (bmapEntry_next hwf hgrown.volume (by rw [hinum, update_self])
        (by rw [hinum, update_self]; exact heq) (Nat.not_lt.mp hdirect) hmax hne).bind ?_
      rintro addr s'' (⟨haddr, hs'', hfull⟩ | ⟨hne', hslot, hlogged, hgrown'⟩)
      · subst haddr hs''
        exact (holds_pure _).mpr (.failed heq hfull (by rw [heq]; exact hgrown))
      · subst hslot
        exact (holds_pure _).mpr (.added heq hne' hlogged (hgrown.trans hgrown'))

end Fs

end EAFITos
