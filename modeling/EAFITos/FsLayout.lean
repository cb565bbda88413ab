/-
The on-disk format of `kernel/fs.h`: the super block, inodes in their blocks, the free
bitmap and the block numbers in an indirect block, with what a store of one of them leaves
unchanged.
-/
import EAFITos.Bio

namespace EAFITos

open Function

def NDIRECT : Nat := 12
def NINDIRECT : Nat := 256
def MAXFILE : Nat := NDIRECT + NINDIRECT

/-- Inodes per block, and bytes of an inode. -/
def IPB : Nat := 16
def DINODE : Nat := 64

/-- Bitmap bits per block. -/
def BPB : Nat := BSIZE * 8

def ROOTINO : Nat := 1

def T_DIR : BitVec 16 := 1
def T_FILE : BitVec 16 := 2
/-- `struct superblock` without its magic number. -/
structure Superblock where
  size : Nat
  nblocks : Nat
  ninodes : Nat
  nlog : Nat
  logstart : Nat
  inodestart : Nat
  bmapstart : Nat
  deriving DecidableEq, Repr

/-- `IBLOCK` and `BBLOCK`. -/
def Superblock.iblock (sb : Superblock) (i : Nat) : Nat := i / IPB + sb.inodestart
def Superblock.bblock (sb : Superblock) (b : Nat) : Nat := b / BPB + sb.bmapstart

/-- `struct dinode`; the address with index `NDIRECT` is the indirect block. -/
structure Dinode where
  type : BitVec 16
  major : BitVec 16
  minor : BitVec 16
  nlink : BitVec 16
  size : Nat
  addrs : Nat → Nat

/-- The values that the fields of the structure can hold. -/
structure Dinode.Fits (d : Dinode) : Prop where
  size : d.size < 2 ^ 32
  addrs : ∀ k, d.addrs k < 2 ^ 32
  last : ∀ k, NDIRECT < k → d.addrs k = 0

abbrev Disk := Nat → Block

namespace Block

variable {b b' : Block} {i j k : Nat} {d : Dinode}

/-- The inode `(struct dinode*)b + i`. -/
def dinode (b : Block) (i : Nat) : Dinode where
  type := .ofNat 16 (b.loadLE (DINODE * i) 2)
  major := .ofNat 16 (b.loadLE (DINODE * i + 2) 2)
  minor := .ofNat 16 (b.loadLE (DINODE * i + 4) 2)
  nlink := .ofNat 16 (b.loadLE (DINODE * i + 6) 2)
  size := b.loadLE (DINODE * i + 8) 4
  addrs := fun k => if k ≤ NDIRECT then b.loadLE (DINODE * i + 12 + 4 * k) 4 else 0

/-- The first `n` words of an array at `a`. -/
def storeWords (b : Block) (a : Nat) (v : Nat → Nat) : Nat → Block
  | 0 => b
  | n + 1 => (storeWords b a v n).storeLE (a + 4 * n) 4 (v n)

/-- `readsb`; the first word is the magic number. -/
def superblock (b : Block) : Superblock where
  size := b.loadLE 4 4
  nblocks := b.loadLE 8 4
  ninodes := b.loadLE 12 4
  nlog := b.loadLE 16 4
  logstart := b.loadLE 20 4
  inodestart := b.loadLE 24 4
  bmapstart := b.loadLE 28 4

/-- `*((struct dinode*)b + i) = d`. -/
def setDinode (b : Block) (i : Nat) (d : Dinode) : Block :=
  storeWords (((((b.storeLE (DINODE * i) 2 d.type.toNat).storeLE (DINODE * i + 2) 2
    d.major.toNat).storeLE (DINODE * i + 4) 2 d.minor.toNat).storeLE (DINODE * i + 6) 2
    d.nlink.toNat).storeLE (DINODE * i + 8) 4 d.size) (DINODE * i + 12) d.addrs (NDIRECT + 1)

/-- The block number `((uint*)b)[j]`. -/
def uint (b : Block) (j : Nat) : Nat := b.loadLE (4 * j) 4

def setUint (b : Block) (j v : Nat) : Block := b.storeLE (4 * j) 4 v

/-- Bit `i` of a bitmap block. -/
def bit (b : Block) (i : Nat) : Bool := (b (i / 8)).toNat &&& 1 <<< (i % 8) ≠ 0

def setBit (b : Block) (i : Nat) : Block :=
  Function.update b (i / 8) (.ofNat ((b (i / 8)).toNat ||| 1 <<< (i % 8)))

theorem storeWords_agreeOn (b : Block) {a m n : Nat} (v : Nat → Nat) {x : Nat}
    (h : x + m ≤ a ∨ a + 4 * n ≤ x) : (b.storeWords a v n).AgreeOn b x m := by
  induction n with
  | zero => exact .refl b x m
  | succ n ih =>
    refine (ByteMem.storeLE_agreeOn _ ?_).trans (ih ?_) <;> omega

theorem loadLE_storeWords (b : Block) {a n : Nat} (v : Nat → Nat) (hk : k < n) :
    (b.storeWords a v n).loadLE (a + 4 * k) 4 = v k % 2 ^ 32 := by
  induction n with
  | zero => cases hk
  | succ n ih =>
    rw [storeWords]
    by_cases heq : k = n
    · subst heq
      exact ByteMem.loadLE_storeLE_same _ _ _ _
    · rw [ByteMem.loadLE_storeLE_other _ (by omega)]
      exact ih (by omega)

theorem setDinode_agreeOn (b : Block) (d : Dinode) {x n : Nat}
    (h : x + n ≤ DINODE * i ∨ DINODE * i + DINODE ≤ x) : (b.setDinode i d).AgreeOn b x n := by
  have hsize : DINODE = 64 := rfl
  have hlast : NDIRECT = 12 := rfl
  refine (storeWords_agreeOn _ _ (by omega)).trans ?_
  refine (ByteMem.storeLE_agreeOn _ (by omega)).trans ?_
  refine (ByteMem.storeLE_agreeOn _ (by omega)).trans ?_
  refine (ByteMem.storeLE_agreeOn _ (by omega)).trans ?_
  exact (ByteMem.storeLE_agreeOn _ (by omega)).trans (ByteMem.storeLE_agreeOn _ (by omega))

theorem dinode_fits (b : Block) (i : Nat) : (b.dinode i).Fits where
  size := b.loadLE_lt _ 4
  addrs := by
    intro k
    simp only [dinode]
    split
    · exact b.loadLE_lt _ 4
    · decide
  last := fun k hk => if_neg (Nat.not_le.mpr hk)

theorem dinode_congr (h : b.AgreeOn b' (DINODE * i) DINODE) : b.dinode i = b'.dinode i := by
  have hload : ∀ off n, off + n ≤ DINODE →
      b.loadLE (DINODE * i + off) n = b'.loadLE (DINODE * i + off) n := by
    intro off n hle
    exact ByteMem.loadLE_congr (h.sub (by omega) (by omega))
  have hlast : NDIRECT = 12 := rfl
  have hsize : DINODE = 64 := rfl
  have haddrs : ∀ k, (b.dinode i).addrs k = (b'.dinode i).addrs k := by
    intro k
    simp only [dinode]
    split
    · rw [Nat.add_assoc]
      exact hload (12 + 4 * k) 4 (by omega)
    · rfl
  have h0 := hload 0 2 (by omega)
  rw [Nat.add_zero] at h0
  refine Dinode.mk.injEq .. |>.mpr ⟨?_, ?_, ?_, ?_, hload 8 4 (by omega), funext haddrs⟩
  · rw [h0]
  · rw [hload 2 2 (by omega)]
  · rw [hload 4 2 (by omega)]
  · rw [hload 6 2 (by omega)]

/-- An inode is read back as it was written. -/
theorem dinode_setDinode (b : Block) (i : Nat) (h : d.Fits) : (b.setDinode i d).dinode i = d := by
  have hlast : NDIRECT = 12 := rfl
  have hshort : ∀ x : BitVec 16, BitVec.ofNat 16 (x.toNat % 256 ^ 2) = x := by
    intro x
    have hlt : x.toNat < 256 ^ 2 := x.isLt
    rw [Nat.mod_eq_of_lt hlt, BitVec.ofNat_toNat, BitVec.setWidth_eq]
  have haddrs : ∀ k, ((b.setDinode i d).dinode i).addrs k = d.addrs k := by
    intro k
    simp only [dinode]
    split
    · rw [setDinode, loadLE_storeWords _ _ (by omega), Nat.mod_eq_of_lt (h.addrs k)]
    · exact (h.last k (by omega)).symm
  obtain ⟨type, major, minor, nlink, size, addrs⟩ := d
  refine Dinode.mk.injEq .. |>.mpr ⟨?_, ?_, ?_, ?_, ?_, funext haddrs⟩
  all_goals
    rw [setDinode, ByteMem.loadLE_congr (storeWords_agreeOn _ _ (by omega))]
  · rw [ByteMem.loadLE_storeLE_other _ (by omega), ByteMem.loadLE_storeLE_other _ (by omega),
      ByteMem.loadLE_storeLE_other _ (by omega), ByteMem.loadLE_storeLE_other _ (by omega),
      ByteMem.loadLE_storeLE_same]
    exact hshort type
  · rw [ByteMem.loadLE_storeLE_other _ (by omega), ByteMem.loadLE_storeLE_other _ (by omega),
      ByteMem.loadLE_storeLE_other _ (by omega), ByteMem.loadLE_storeLE_same]
    exact hshort major
  · rw [ByteMem.loadLE_storeLE_other _ (by omega), ByteMem.loadLE_storeLE_other _ (by omega),
      ByteMem.loadLE_storeLE_same]
    exact hshort minor
  · rw [ByteMem.loadLE_storeLE_other _ (by omega), ByteMem.loadLE_storeLE_same]
    exact hshort nlink
  · rw [ByteMem.loadLE_storeLE_same]
    exact Nat.mod_eq_of_lt h.size

/-- The other inodes of the block are unchanged. -/
theorem dinode_setDinode_of_ne (b : Block) (d : Dinode) (h : j ≠ i) :
    (b.setDinode i d).dinode j = b.dinode j := by
  have hsize : DINODE = 64 := rfl
  exact dinode_congr (setDinode_agreeOn b d (by rw [hsize]; omega))

theorem uint_setUint (b : Block) (j : Nat) {v : Nat} (h : v < 2 ^ 32) :
    (b.setUint j v).uint j = v :=
  ByteMem.loadLE_storeLE_of_lt b h

theorem uint_setUint_of_ne (b : Block) (v : Nat) (h : k ≠ j) :
    (b.setUint j v).uint k = b.uint k :=
  ByteMem.loadLE_storeLE_other b (by omega)

theorem bit_eq_testBit (b : Block) (i : Nat) : b.bit i = (b (i / 8)).toNat.testBit (i % 8) := by
  rw [bit, Nat.one_shiftLeft, Nat.and_two_pow]
  cases (b (i / 8)).toNat.testBit (i % 8) <;> simp

theorem toNat_ofNat_lor (x : UInt8) (hk : k < 8) :
    (UInt8.ofNat (x.toNat ||| 1 <<< k)).toNat = x.toNat ||| 2 ^ k := by
  have hpow : 2 ^ k < 2 ^ 8 := Nat.pow_lt_pow_right (by decide) hk
  rw [Nat.one_shiftLeft, UInt8.toNat_ofNat']
  exact Nat.mod_eq_of_lt (Nat.or_lt_two_pow x.toNat_lt hpow)

theorem bit_setBit (b : Block) (i j : Nat) : (b.setBit i).bit j = (decide (j = i) || b.bit j) := by
  rw [bit_eq_testBit, bit_eq_testBit, setBit]
  by_cases hbyte : j / 8 = i / 8
  · rw [hbyte, update_self, toNat_ofNat_lor _ (Nat.mod_lt i (by decide)),
      Nat.testBit_or, Nat.testBit_two_pow, Bool.or_comm]
    congr 1
    exact decide_eq_decide.mpr (by omega)
  · have hne : j ≠ i := by
      rintro rfl
      exact hbyte rfl
    rw [update_of_ne hbyte, decide_eq_false hne, Bool.false_or]

end Block

namespace Disk

variable {disk : Disk} {sb : Superblock} {i j : Nat} {d : Dinode}

/-- The inode with number `i`. -/
def inode (disk : Disk) (sb : Superblock) (i : Nat) : Dinode :=
  (disk (sb.iblock i)).dinode (i % IPB)

def setInode (disk : Disk) (sb : Superblock) (i : Nat) (d : Dinode) : Disk :=
  Function.update disk (sb.iblock i) ((disk (sb.iblock i)).setDinode (i % IPB) d)

theorem inode_setInode (disk : Disk) (sb : Superblock) (i : Nat) (h : d.Fits) :
    (disk.setInode sb i d).inode sb i = d := by
  rw [inode, setInode, update_self]
  exact Block.dinode_setDinode _ _ h

theorem inode_setInode_of_ne (disk : Disk) (sb : Superblock) (d : Dinode) (h : j ≠ i) :
    (disk.setInode sb i d).inode sb j = disk.inode sb j := by
  rw [inode, setInode]
  by_cases hblock : sb.iblock j = sb.iblock i
  · have hindex : j % IPB ≠ i % IPB := by
      intro hmod
      have hdiv : j / IPB = i / IPB := Nat.add_right_cancel hblock
      rw [← Nat.div_add_mod j IPB, ← Nat.div_add_mod i IPB, hdiv, hmod] at h
      exact h rfl
    rw [hblock, update_self, Block.dinode_setDinode_of_ne _ _ hindex, inode, hblock]
  · rw [update_of_ne hblock]
    rfl

theorem setInode_of_ne (disk : Disk) (d : Dinode) {b : Nat} (h : b ≠ sb.iblock i) :
    disk.setInode sb i d b = disk b :=
  update_of_ne h _ _

theorem inode_congr {disk' : Disk} (h : disk' (sb.iblock i) = disk (sb.iblock i)) :
    disk'.inode sb i = disk.inode sb i := by
  rw [inode, inode, h]

end Disk

end EAFITos
