/-
The image that `mkfs` leaves when it runs to its end, against the invariant that the kernel
expects of a file system.
-/
import EAFITos.MkfsImage

namespace EAFITos

open Function List Option

variable {es : List (Nat × List UInt8)}

variable {b k n : Nat} {file : InputFile} {din din1 : Dinode}

/-! ## A well-formed file system -/

/-- The blocks of a file and its indirect block. -/
def fileBlocks (disk : Disk) (d : Dinode) : List Nat :=
  (List.range (blocks d.size)).map (slot disk d.addrs) ++
    if NDIRECT < blocks d.size then [d.addrs NDIRECT] else []

/-- A byte of a file. -/
def fileByte (disk : Disk) (d : Dinode) (off : Nat) : UInt8 :=
  disk (slot disk d.addrs (off / BSIZE)) (off % BSIZE)

/-- The inode number in entry `k` of a directory. -/
def direntInum (disk : Disk) (d : Dinode) (k : Nat) : Nat :=
  (fileByte disk d (DIRENT * k)).toNat + 256 * (fileByte disk d (DIRENT * k + 1)).toNat

/-- Whether the bitmap marks block `b`. -/
def marked (disk : Disk) (sb : Superblock) (b : Nat) : Bool := (disk (sb.bblock b)).bit (b % BPB)

/-- What the kernel expects of a disk on which the inodes `inums` are in use. -/
structure WellFormed (disk : Disk) (sb : Superblock) (inums : List Nat) : Prop where
  super : (disk 1).superblock = sb
  slots : ∀ i ∈ inums, ∀ bn, bn < blocks (disk.inode sb i).size →
    slot disk (disk.inode sb i).addrs bn ≠ 0
  area : ∀ i ∈ inums, ∀ b ∈ fileBlocks disk (disk.inode sb i),
    sb.size - sb.nblocks ≤ b ∧ b < sb.size
  distinct : (inums.flatMap fun i => fileBlocks disk (disk.inode sb i)).Nodup
  bitmap : ∀ b, b < BPB * (sb.size / BPB + 1) → (marked disk sb b = true ↔
    b < sb.size - sb.nblocks ∨ b ∈ inums.flatMap fun i => fileBlocks disk (disk.inode sb i))
  numbers : ∀ i ∈ inums, i < sb.ninodes
  root : ∀ k, DIRENT * k < (disk.inode sb ROOTINO).size →
    direntInum disk (disk.inode sb ROOTINO) k ≠ 0 →
      direntInum disk (disk.inode sb ROOTINO) k ∈ inums ∧
        (disk.inode sb (direntInum disk (disk.inode sb ROOTINO) k)).type ≠ 0

namespace Mkfs

variable {s s1 : Mkfs} {content : Nat → List UInt8} {i : Nat} {p : List UInt8}

/-- The inode numbers that `mkfs` has handed out. -/
def inums (s : Mkfs) : List Nat := List.range' 1 (s.freeinode - 1)

theorem mem_inums (h : 1 ≤ s.freeinode) : i ∈ s.inums ↔ 1 ≤ i ∧ i < s.freeinode := by
  rw [inums, mem_range'_1]
  omega

/-! ## Files and their blocks -/

section Blocks

variable {disk : Disk} {d : Dinode} {nb : Nat} {bytes : List UInt8}

theorem mem_fileBlocks (hfile : Stored disk d.addrs (blocks d.size) bytes)
    (hind : d.addrs NDIRECT ≠ 0 ↔ NDIRECT < blocks d.size) :
    b ∈ fileBlocks disk d ↔ b ≠ 0 ∧ ∃ x : Place, x.ref disk d.addrs = b := by
  have hslot : ∀ bn, slot disk d.addrs bn ≠ 0 → slot disk d.addrs bn ∈ fileBlocks disk d := by
    intro bn hbn
    refine mem_append_left _ (mem_map.mpr ⟨bn, mem_range.mpr ?_, rfl⟩)
    exact (hfile.slots bn).mp hbn
  constructor
  · intro hb
    obtain hb | hb := mem_append.mp hb
    · obtain ⟨bn, hbn, rfl⟩ := mem_map.mp hb
      exact ⟨(hfile.slots bn).mpr (mem_range.mp hbn), .ofIndex bn, rfl⟩
    · split at hb
      · next hlt =>
        obtain rfl := mem_singleton.mp hb
        exact ⟨hind.mpr hlt, .indirect, rfl⟩
      · cases hb
  · rintro ⟨hne, x, rfl⟩
    cases x with
    | direct k =>
      by_cases hk : k < NDIRECT
      · have heq : slot disk d.addrs k = Place.ref disk d.addrs (.direct k) := by
          rw [slot, Place.ofIndex_direct hk]
        rw [← heq] at hne ⊢
        exact hslot k hne
      · exact absurd (if_neg hk) hne
    | indirect =>
      refine mem_append_right _ ?_
      rw [if_pos (hind.mp hne)]
      exact mem_singleton_self _
    | entry j =>
      have heq : slot disk d.addrs (NDIRECT + j) = Place.ref disk d.addrs (.entry j) := by
        rw [slot, Place.ofIndex_entry (Nat.le_add_right _ _), Nat.add_sub_cancel_left]
      rw [← heq] at hne ⊢
      exact hslot (NDIRECT + j) hne

end Blocks

/-- The inodes of a list have the block maps of the image. -/
structure Mapped (heads : Nat → Nat → Nat) (nb : Nat → Nat) (ds : Nat → Dinode) (l : List Nat) :
    Prop where
  addrs : ∀ i ∈ l, heads i = (ds i).addrs
  size : ∀ i ∈ l, nb i = blocks (ds i).size
  indirect : ∀ i ∈ l, (ds i).addrs NDIRECT ≠ 0 ↔ NDIRECT < blocks (ds i).size

section Mapped

variable {disk : Disk} {heads : Nat → Nat → Nat} {fb : Nat} {nb : Nat → Nat} {ds : Nat → Dinode}
  {l : List Nat}

section

variable (h : Laid disk heads fb nb content) (hmap : Mapped heads nb ds l)
include h hmap

theorem Laid.mapped_file (hi : i ∈ l) :
    Stored disk (ds i).addrs (blocks (ds i).size) (content i) := by
  rw [← hmap.addrs i hi, ← hmap.size i hi]
  exact h.files i

theorem Laid.mem_fileBlocks (hi : i ∈ l) :
    b ∈ fileBlocks disk (ds i) ↔ b ≠ 0 ∧ ∃ x, refs disk heads (i, x) = b := by
  rw [Mkfs.mem_fileBlocks (h.mapped_file hmap hi) (hmap.indirect i hi), ← hmap.addrs i hi]
  rfl

/-- The blocks of the files are those handed out, each once. -/
theorem Laid.nodup_fileBlocks (hl : l.Nodup) :
    (l.flatMap fun i => fileBlocks disk (ds i)).Nodup := by
  rw [nodup_flatMap]
  refine ⟨fun i hi => ?_, ?_⟩
  · have hfile := h.mapped_file hmap hi
    have hunique : ∀ x y : Place, x.ref disk (ds i).addrs ≠ 0 →
        x.ref disk (ds i).addrs = y.ref disk (ds i).addrs → x = y := by
      intro x y hne heq
      rw [← hmap.addrs i hi] at hne heq
      exact (Prod.mk.inj (h.handed.exact.unique (i, x) (i, y) hne heq)).2
    rw [fileBlocks, nodup_append']
    refine ⟨?_, by split <;> simp, fun b hb hb' => ?_⟩
    · refine List.Nodup.map_on (fun bn hbn bn' _ heq => ?_) nodup_range
      have hne := (hfile.slots bn).mpr (mem_range.mp hbn)
      exact Place.ofIndex_inj (hunique (.ofIndex bn) (.ofIndex bn') hne heq)
    · obtain ⟨bn, hbn, rfl⟩ := mem_map.mp hb
      split at hb'
      · have hne := (hfile.slots bn).mpr (mem_range.mp hbn)
        have heq := mem_singleton.mp hb'
        exact Place.ofIndex_ne_indirect bn (hunique (.ofIndex bn) .indirect hne heq)
      · cases hb'
  · refine hl.imp_of_mem fun {i j} hi hj hij => ?_
    intro b hb hb'
    obtain ⟨hne, x, rfl⟩ := (h.mem_fileBlocks hmap hi).mp hb
    obtain ⟨-, y, heq⟩ := (h.mem_fileBlocks hmap hj).mp hb'
    exact hij (Prod.mk.inj (h.handed.exact.unique (i, x) (j, y) hne heq.symm)).1

end

end Mapped

/-- The bitmap of `mkfs` marks the blocks below `used`. -/
theorem bit_bitmap (used b : Nat) : (bitmap used).bit b = decide (b < used) := by
  induction used with
  | zero =>
    rw [Block.bit_eq_testBit]
    exact Nat.zero_testBit _
  | succ used ih =>
    have hstep : bitmap (used + 1) = (bitmap used).setBit used := by
      rw [bitmap, range_succ, foldl_append]
      rfl
    rw [hstep, Block.bit_setBit, ih, ← Bool.decide_or]
    exact decide_eq_decide.mpr (by omega)

/-! ## The root directory -/

/-- The root directory consists of these entries, which name inodes in use. -/
structure Entries (s : Mkfs) (content : Nat → List UInt8) (es : List (Nat × List UInt8)) : Prop where
  bytes : content ROOTINO = es.flatMap fun e => direntBytes e.1 e.2
  inums : ∀ e ∈ es, 1 ≤ e.1 ∧ e.1 < s.freeinode

theorem length_entries (es : List (Nat × List UInt8)) :
    (es.flatMap fun e => direntBytes e.1 e.2).length = DIRENT * es.length := by
  induction es with
  | nil => rfl
  | cons e es ih =>
    rw [flatMap_cons, length_append, ih, length_direntBytes, length_cons]
    ring

/-- A byte of entry `k`. -/
theorem getD_entries (es : List (Nat × List UInt8)) {r : Nat} (hr : r < DIRENT) :
    (es.flatMap fun e => direntBytes e.1 e.2).getD (DIRENT * k + r) 0 = match es[k]? with
      | none => 0
      | some e => (direntBytes e.1 e.2).getD r 0 := by
  induction es generalizing k with
  | nil => rfl
  | cons e es ih =>
    have hlen := length_direntBytes e.1 e.2
    rw [flatMap_cons]
    cases k with
    | zero =>
      rw [List.getD_append _ _ _ _ (by omega), Nat.mul_zero, Nat.zero_add]
      rfl
    | succ k =>
      have hpos : DIRENT * (k + 1) + r - (direntBytes e.1 e.2).length = DIRENT * k + r := by
        rw [hlen, Nat.mul_add, Nat.mul_one]
        omega
      rw [getD_append_right _ _ _ _ (by rw [hlen, Nat.mul_add, Nat.mul_one]; omega), hpos, ih]
      rfl

theorem getD_direntBytes (inum : Nat) (name : List UInt8) :
    (direntBytes inum name).getD 0 0 = UInt8.ofNat inum ∧
      (direntBytes inum name).getD 1 0 = UInt8.ofNat (inum / 256) := by
  have hbytes : leBytes 2 inum = [UInt8.ofNat inum, UInt8.ofNat (inum / 256)] := by
    rw [leBytes]
    simp [range_succ]
  rw [direntBytes, hbytes]
  exact ⟨rfl, rfl⟩

/-! ## The run of `main` -/

/-- The appends of one file. -/
theorem Image.appends (h : Image s content) (hi : 1 ≤ i ∧ i < s.freeinode)
    (chunks : List (List UInt8)) (hrun : chunks.foldlM (fun s c => s.iappend i c) s = some s1) :
    Image s1 (update content i (content i ++ chunks.flatten)) ∧ s1.freeinode = s.freeinode := by
  induction chunks generalizing s content with
  | nil =>
    cases hrun
    rw [flatten_nil, append_nil, update_eq_self]
    exact ⟨h, rfl⟩
  | cons c chunks ih =>
    rw [foldlM_cons, bind_eq_bind, bind_eq_some_iff] at hrun
    obtain ⟨s2, hstep, hrun⟩ := hrun
    obtain ⟨-, s2', hsome, himage, hfree⟩ | ⟨-, hnone⟩ := h.iappend hi c
    · cases hsome.symm.trans hstep
      obtain ⟨hdone, hfree'⟩ := ih himage (by rw [hfree]; exact hi) hrun
      rw [update_idem, update_self, append_assoc] at hdone
      exact ⟨hdone, hfree'.trans hfree⟩
    · cases hnone.symm.trans hstep

theorem Entries.append (h : Entries s content es) {inum : Nat} (name : List UInt8)
    (hfree : s.freeinode ≤ s1.freeinode) (hinum : 1 ≤ inum ∧ inum < s1.freeinode) :
    Entries s1 (update content ROOTINO (content ROOTINO ++ direntBytes inum name))
      (es ++ [(inum, name)]) := by
  refine ⟨?_, fun e he => ?_⟩
  · rw [update_self, h.bytes, flatMap_append, flatMap_singleton]
  · obtain he | he := mem_append.mp he
    · have hlt := h.inums e he
      omega
    · obtain rfl := mem_singleton.mp he
      exact hinum

theorem Entries.other (h : Entries s content es) (hi : i ≠ ROOTINO)
    (hfree : s1.freeinode = s.freeinode) (bytes : List UInt8) :
    Entries s1 (update content i bytes) es := by
  refine ⟨?_, fun e he => ?_⟩
  · rw [update_of_ne (Ne.symm hi)]
    exact h.bytes
  · rw [hfree]
    exact h.inums e he

/-- One more file and one more entry in the root directory. -/
theorem Image.addFile (h : Image s content) (hes : Entries s content es)
    (hroom : 2 ≤ s.freeinode ∧ s.freeinode < NINODES) (hadd : s.addFile file = some s1) :
    ∃ content' es', Image s1 content' ∧ Entries s1 content' es' ∧ es'.length = es.length + 1 ∧
      s1.freeinode = s.freeinode + 1 := by
  have hroot : ROOTINO = 1 := rfl
  rw [Mkfs.addFile] at hadd
  rw [ite_none_left_eq_some, ite_none_left_eq_some] at hadd
  obtain ⟨-, -, hadd⟩ := hadd
  obtain ⟨s2, hialloc, himage, hfree⟩ := h.ialloc hroom.2 T_FILE (by decide)
  rw [hialloc] at hadd
  dsimp only at hadd
  obtain ⟨-, s3, happend, himage3, hfree3⟩ | ⟨-, hnone⟩ := himage.iappend
    (i := ROOTINO) (by omega) (direntBytes s.freeinode (dirName (shortname file.arg)))
  swap
  · rw [hnone] at hadd
    cases hadd
  rw [happend] at hadd
  obtain ⟨hdone, hfree4⟩ := himage3.appends (by omega) _ hadd
  have hnew : 1 ≤ s.freeinode ∧ s.freeinode < s3.freeinode := by omega
  have hentries := hes.append (dirName (shortname file.arg)) (by omega) hnew
  refine ⟨_, _, hdone, hentries.other (by omega) hfree4 _, ?_, by omega⟩
  rw [length_append]
  rfl

theorem Image.addFiles (h : Image s content) (hes : Entries s content es) (hlo : 2 ≤ s.freeinode)
    (files : List InputFile) (hroom : s.freeinode + files.length ≤ NINODES)
    (hrun : files.foldlM Mkfs.addFile s = some s1) :
    ∃ content' es', Image s1 content' ∧ Entries s1 content' es' ∧
      es'.length = es.length + files.length ∧ s1.freeinode = s.freeinode + files.length := by
  induction files generalizing s content es with
  | nil =>
    cases hrun
    exact ⟨content, es, h, hes, rfl, rfl⟩
  | cons file files ih =>
    rw [foldlM_cons, bind_eq_bind, bind_eq_some_iff] at hrun
    rw [length_cons] at hroom
    obtain ⟨s2, hadd, hrun⟩ := hrun
    obtain ⟨content2, es2, himage, hes2, hlen, hfree⟩ := h.addFile hes ⟨hlo, by omega⟩ hadd
    obtain ⟨content3, es3, himage3, hes3, hlen3, hfree3⟩ := ih himage hes2 (by omega) (by omega) hrun
    refine ⟨content3, es3, himage3, hes3, ?_, ?_⟩
    all_goals
      rw [length_cons]
      omega

/-- An append that fits. -/
theorem Image.iappend_some (h : Image s content) (hi : 1 ≤ i ∧ i < s.freeinode)
    (hfits : Fits s (content i).length p.length) :
    ∃ s1, s.iappend i p = some s1 ∧ Image s1 (update content i (content i ++ p)) ∧
      s1.freeinode = s.freeinode := by
  obtain ⟨-, hdone⟩ | ⟨hnot, -⟩ := h.iappend hi p
  · exact hdone
  · exact absurd hfits hnot

/-- The entries for `.` and `..`. -/
def rootEntries : List (Nat × List UInt8) := [(ROOTINO, [46]), (ROOTINO, [46, 46])]

def rootContent : Nat → List UInt8 :=
  update (fun _ => []) ROOTINO (rootEntries.flatMap fun e => direntBytes e.1 e.2)

theorem sum_root (hn : 2 ≤ n) (bytes : List UInt8) :
    ∑ i ∈ Finset.range n, cost (update (fun _ => []) ROOTINO bytes i).length =
      cost bytes.length := by
  have hroot : ROOTINO = 1 := rfl
  rw [Finset.sum_eq_single ROOTINO, update_self]
  · intro i _ hi
    rw [update_of_ne hi]
    rfl
  · exact fun hnot => absurd (Finset.mem_range.mpr (by omega)) hnot

theorem makeRoot_some : ∃ s, makeRoot = some s ∧ Image s rootContent ∧
    Entries s rootContent rootEntries ∧ s.freeinode = 2 := by
  have hroot : ROOTINO = 1 := rfl
  obtain ⟨s1, halloc, himage1, hfree1⟩ := image_start.ialloc (by decide) T_DIR (by decide)
  have hstart : start.freeinode = 1 := rfl
  rw [hstart] at halloc hfree1
  have htotal : s1.freeblock = nmeta := by
    rw [himage1.total, Finset.sum_eq_zero]
    · rfl
    · exact fun _ _ => rfl
  have hfits1 : Fits s1 ([] : List UInt8).length (direntBytes ROOTINO [46]).length := by
    rw [Fits, htotal, length_direntBytes]
    decide
  obtain ⟨s2, happend2, himage2, hfree2⟩ := himage1.iappend_some (i := ROOTINO) (by omega) hfits1
  have htotal2 := himage2.total
  rw [sum_root (by omega), length_append, length_direntBytes] at htotal2
  have hfits2 : Fits s2 (update (fun _ => []) ROOTINO ([] ++ direntBytes ROOTINO [46])
      ROOTINO).length (direntBytes ROOTINO [46, 46]).length := by
    rw [Fits, htotal2, update_self, length_append, length_direntBytes, length_direntBytes]
    decide
  obtain ⟨s3, happend3, himage3, hfree3⟩ := himage2.iappend_some (i := ROOTINO) (by omega) hfits2
  have hcontent : rootContent = update (update (fun _ => []) ROOTINO
      ([] ++ direntBytes ROOTINO [46])) ROOTINO (update (fun _ => []) ROOTINO
      ([] ++ direntBytes ROOTINO [46]) ROOTINO ++ direntBytes ROOTINO [46, 46]) := by
    rw [update_idem, update_self]
    rfl
  refine ⟨s3, ?_, ?_, ⟨update_self _ _ _, fun e he => ?_⟩, by omega⟩
  · rw [makeRoot, halloc]
    dsimp only
    rw [if_pos hroot.symm, ← hroot, happend2, bind_some, happend3]
  · rw [hcontent]
    exact himage3
  · rw [rootEntries, mem_cons, mem_singleton] at he
    obtain rfl | rfl := he
    all_goals
      omega

/-! ## The end of `main` -/

/-- The size that `main` gives to a root directory of `n` bytes. -/
def roundRoot (n : Nat) : Nat := (n / BSIZE + 1) * BSIZE

/-- The image at the end. -/
def finished (s : Mkfs) : Mkfs :=
  let s1 := s.putInode ROOTINO { s.disk.inode sb ROOTINO with
    size := roundRoot (s.disk.inode sb ROOTINO).size }
  { s1 with disk := update s1.disk sb.bmapstart (bitmap s1.freeblock) }

theorem finished_disk (s : Mkfs) : s.finished.disk =
    update (s.disk.setInode sb ROOTINO { s.disk.inode sb ROOTINO with
      size := roundRoot (s.disk.inode sb ROOTINO).size }) sb.bmapstart (bitmap s.freeblock) := rfl

section Finish

variable (h : Image s content) (hroot : 2 ≤ s.freeinode)

include h in
theorem Image.finish : (s.fixRoot.bind fun s => s.balloc s.freeblock) = some s.finished := by
  have hhi := h.laid.handed.hi
  have hsize : FSSIZE = 2000 := rfl
  have hbpb : BPB = 8192 := rfl
  rw [fixRoot, rinode_eq s (by decide)]
  dsimp only
  rw [winode_eq s (by decide), bind_some, balloc, if_pos (by dsimp only [putInode]; omega),
    wsect_disk _ (by decide)]
  rfl

include h in
theorem Image.laid_finished :
    Laid s.finished.disk s.heads s.freeblock (fun i => blocks (content i).length) content :=
  (h.laid.update_meta (by decide) _).update_meta (by decide) _

include h in
theorem Image.super_finished : (s.finished.disk 1).superblock = sb := by
  exact h.super

theorem marked_finished (hb : b < BPB) :
    marked s.finished.disk sb b = decide (b < s.freeblock) := by
  have hblock : sb.bblock b = sb.bmapstart := by
    rw [Superblock.bblock, Nat.div_eq_of_lt hb, Nat.zero_add]
  rw [marked, hblock, finished_disk, update_self, Nat.mod_eq_of_lt hb, bit_bitmap]

include h hroot

theorem Image.root_fits : ({ s.disk.inode sb ROOTINO with
    size := roundRoot (s.disk.inode sb ROOTINO).size } : Dinode).Fits := by
  have hfits : (s.disk.inode sb ROOTINO).Fits := Block.dinode_fits _ _
  refine ⟨?_, hfits.addrs, hfits.last⟩
  have hlen := (h.appending (i := ROOTINO) ⟨Nat.le_refl 1, hroot⟩).length_le
  have hmax : MAXFILE * BSIZE = 274432 := rfl
  have hbsize : BSIZE = 1024 := rfl
  dsimp only
  rw [h.size ROOTINO le_rfl hroot, roundRoot, hbsize]
  omega

theorem Image.inode_finished (hi : i < 208) : s.finished.disk.inode sb i =
    if i = ROOTINO then { s.disk.inode sb ROOTINO with
      size := roundRoot (s.disk.inode sb ROOTINO).size }
    else s.disk.inode sb i := by
  have hblock : s.finished.disk.inode sb i = (s.putInode ROOTINO { s.disk.inode sb ROOTINO with
      size := roundRoot (s.disk.inode sb ROOTINO).size }).disk.inode sb i :=
    Disk.inode_congr (update_of_ne (Nat.ne_of_lt (iblock_bounds hi).2) _ _)
  rw [hblock]
  split
  · next heq =>
    subst heq
    exact Disk.inode_setInode _ _ _ (h.root_fits hroot)
  · next hne => exact Disk.inode_setInode_of_ne _ _ _ hne

/-- A root directory that ends with a block is left with a size of one block too many. -/
theorem Image.not_wellFormed (hfull : (content ROOTINO).length % BSIZE = 0) :
    ¬ WellFormed s.finished.disk sb s.finished.inums := by
  intro hwf
  have hlen := h.size ROOTINO le_rfl hroot
  have hmem : ROOTINO ∈ s.finished.inums := (mem_inums h.inodes.1).mpr ⟨Nat.le_refl 1, hroot⟩
  have hslot := hwf.slots ROOTINO hmem ((content ROOTINO).length / BSIZE)
  rw [h.inode_finished hroot (by decide), if_pos rfl] at hslot
  dsimp only at hslot
  rw [hlen] at hslot
  have hfile := h.laid_finished.files ROOTINO
  rw [heads, if_pos ⟨Nat.le_refl 1, hroot⟩, blocks_of_mod hfull] at hfile
  refine (hfile.slots _).mp (hslot ?_) |> Nat.lt_irrefl _
  have hbsize : BSIZE = 1024 := rfl
  rw [blocks, roundRoot, hbsize]
  omega

theorem Image.mapped_finished (hpart : (content ROOTINO).length % BSIZE ≠ 0) :
    Mapped s.heads (fun i => blocks (content i).length) (s.finished.disk.inode sb)
      s.finished.inums := by
  have hnum : NINODES = 200 := rfl
  have hmax := h.inodes.2
  have hmem : ∀ i ∈ s.finished.inums, 1 ≤ i ∧ i < s.freeinode := fun i hi =>
    (mem_inums (s := s.finished) h.inodes.1).mp hi
  have haddrs : ∀ i ∈ s.finished.inums, s.heads i = (s.finished.disk.inode sb i).addrs := by
    intro i hi
    obtain ⟨hlo, hhi⟩ := hmem i hi
    rw [heads, if_pos ⟨hlo, hhi⟩, h.inode_finished hroot (by omega)]
    split
    · next heq => rw [heq]
    · rfl
  have hsize : ∀ i ∈ s.finished.inums,
      blocks (content i).length = blocks (s.finished.disk.inode sb i).size := by
    intro i hi
    obtain ⟨hlo, hhi⟩ := hmem i hi
    rw [h.inode_finished hroot (by omega)]
    split
    · next heq =>
      subst heq
      dsimp only
      have hbsize : BSIZE = 1024 := rfl
      rw [h.size ROOTINO hlo hhi, blocks_of_mod_ne hpart, blocks, roundRoot, hbsize]
      omega
    · rw [h.size i hlo hhi]
  refine ⟨haddrs, hsize, fun i hi => ?_⟩
  rw [← haddrs i hi, ← hsize i hi]
  exact h.indirect i

section

variable (hes : Entries s content es) (hpart : (content ROOTINO).length % BSIZE ≠ 0)
include hes hpart

theorem Image.direntInum_finished (hk : DIRENT * k < (s.finished.disk.inode sb ROOTINO).size) :
    direntInum s.finished.disk (s.finished.disk.inode sb ROOTINO) k = match es[k]? with
      | none => 0
      | some e => e.1 := by
  have hnum : NINODES = 200 := rfl
  have hdirent : DIRENT = 16 := rfl
  have hbsize : BSIZE = 1024 := rfl
  have hmax := h.inodes.2
  have hmem : ROOTINO ∈ s.finished.inums :=
    (mem_inums (s := s.finished) h.inodes.1).mpr ⟨Nat.le_refl 1, hroot⟩
  have hfile := h.laid_finished.mapped_file (h.mapped_finished hroot hpart) hmem
  have hround : (s.finished.disk.inode sb ROOTINO).size =
      blocks (s.finished.disk.inode sb ROOTINO).size * BSIZE := by
    rw [h.inode_finished hroot (by decide), if_pos rfl]
    dsimp only
    rw [roundRoot, blocks, hbsize]
    omega
  have hbyte : ∀ r, r < 2 → fileByte s.finished.disk (s.finished.disk.inode sb ROOTINO)
      (DIRENT * k + r) = (content ROOTINO).getD (DIRENT * k + r) 0 := by
    intro r hr
    refine hfile.data _ ?_
    rw [hdirent] at hk ⊢
    rw [hbsize] at hround ⊢
    omega
  have hbyte0 := hbyte 0 (by decide)
  rw [Nat.add_zero] at hbyte0
  have hget0 := getD_entries es (k := k) (r := 0) (by decide)
  rw [Nat.add_zero] at hget0
  rw [direntInum, hbyte0, hbyte 1 (by decide), hes.bytes, hget0, getD_entries es (by decide)]
  cases hek : es[k]? with
  | none => rfl
  | some e =>
    have hlt := hes.inums e (mem_of_getElem? hek)
    obtain ⟨hlow, hhigh⟩ := getD_direntBytes e.1 e.2
    dsimp only
    rw [hlow, hhigh, UInt8.toNat_ofNat', UInt8.toNat_ofNat']
    omega

/-- Otherwise the image is as the kernel expects it. -/
theorem Image.wellFormed : WellFormed s.finished.disk sb s.finished.inums := by
  have hlaid := h.laid_finished
  have hmap := h.mapped_finished hroot hpart
  have hhi := h.laid.handed.hi
  have hlo := h.laid.handed.lo
  have hdata : sb.size - sb.nblocks = nmeta := by decide
  have hsize : sb.size = FSSIZE := rfl
  have hmem : ∀ i, i ∈ s.finished.inums ↔ 1 ≤ i ∧ i < s.freeinode := fun i =>
    mem_inums (s := s.finished) h.inodes.1
  have harea : ∀ i ∈ s.finished.inums, ∀ b ∈ fileBlocks s.finished.disk
      (s.finished.disk.inode sb i), nmeta ≤ b ∧ b < s.freeblock := by
    intro i hi b hb
    obtain ⟨hne, x, rfl⟩ := (hlaid.mem_fileBlocks hmap hi).mp hb
    exact hlaid.handed.ref_lt hne
  refine ⟨h.super_finished, fun i hi bn hbn => ?_, fun i hi b hb => ?_,
    hlaid.nodup_fileBlocks hmap nodup_range', fun b hb => ?_, fun i hi => ?_, fun k hk hne => ?_⟩
  · exact ((hlaid.mapped_file hmap hi).slots bn).mpr hbn
  · have hb := harea i hi b hb
    omega
  · have hbits : BPB * (sb.size / BPB + 1) = BPB := by decide
    rw [marked_finished hb, decide_eq_true_eq, hdata, mem_flatMap]
    constructor
    · intro hlt
      by_cases hlow : b < nmeta
      · exact .inl hlow
      · obtain ⟨hne, ⟨i, x⟩, hx⟩ := hlaid.handed.exact.held b ⟨by omega, hlt⟩
        have hi : i ∈ s.finished.inums := by
          by_contra hnot
          have hheads : s.heads i = fun _ => 0 := if_neg fun hin => hnot ((hmem i).mpr hin)
          rw [refs, hheads] at hx
          exact hne (hx.symm.trans (refs_zero s.finished.disk (i, x)))
        exact .inr ⟨i, hi, (hlaid.mem_fileBlocks hmap hi).mpr ⟨hne, x, hx⟩⟩
    · rintro (hlow | ⟨i, hi, hb⟩)
      · omega
      · exact (harea i hi b hb).2
  · exact Nat.lt_of_lt_of_le ((hmem i).mp hi).2 h.inodes.2
  · rw [h.direntInum_finished hroot hes hpart hk] at hne ⊢
    cases hek : es[k]? with
    | none =>
      rw [hek] at hne
      exact absurd rfl hne
    | some e =>
      obtain ⟨hlo, hhi⟩ := hes.inums e (mem_of_getElem? hek)
      have hnum : NINODES = 200 := rfl
      have hmax := h.inodes.2
      dsimp only
      refine ⟨(hmem e.1).mpr ⟨hlo, hhi⟩, ?_⟩
      rw [h.inode_finished hroot (by omega)]
      split
      · exact h.type ROOTINO le_rfl hroot
      · exact h.type e.1 hlo hhi

end

end Finish

/-! ## Inode numbers in any run -/

theorem wsect_freeinode (s : Mkfs) (sec : Nat) (buf : Block) :
    (s.wsect sec buf).freeinode = s.freeinode := rfl

theorem winode_freeinode {d : Dinode} (h : s.winode i d = some s1) :
    s1.freeinode = s.freeinode := by
  rw [winode, map_eq_some_iff] at h
  obtain ⟨buf, -, rfl⟩ := h
  rfl

theorem appendBlock_freeinode {fbn x : Nat} (h : s.appendBlock din fbn = some (s1, din1, x)) :
    s1.freeinode = s.freeinode := by
  rw [appendBlock] at h
  split at h
  · split at h
    all_goals
      cases h
      rfl
  · dsimp only at h
    split at h
    · cases h
    · split at h
      all_goals
        cases h
        by_cases hind : din.addrs NDIRECT = 0
        · simp only [if_pos hind, wsect]
        · simp only [if_neg hind, wsect]

theorem iappendLoop_freeinode {off off1 : Nat}
    (h : s.iappendLoop din off p = some (s1, din1, off1)) : s1.freeinode = s.freeinode := by
  induction s, din, off, p using iappendLoop.induct with
  | case1 s din off =>
    rw [iappendLoop, dif_pos rfl] at h
    cases h
    rfl
  | case2 s din off p hp fbn hfbn hblock =>
    rw [iappendLoop, dif_neg hp, if_pos hfbn, hblock] at h
    cases h
  | case3 s din off p hp fbn hfbn s2 din2 x hblock hread =>
    rw [iappendLoop, dif_neg hp, if_pos hfbn, hblock] at h
    dsimp only at h
    rw [hread] at h
    cases h
  | case4 s din off p hp fbn hfbn s2 din2 x hblock n1 buf hread ih =>
    rw [iappendLoop, dif_neg hp, if_pos hfbn, hblock] at h
    dsimp only at h
    rw [hread] at h
    calc s1.freeinode = s2.freeinode := ih h
      _ = s.freeinode := appendBlock_freeinode hblock
  | case5 s din off p hp fbn hfbn =>
    rw [iappendLoop, dif_neg hp, if_neg hfbn] at h
    cases h

theorem iappend_freeinode (h : s.iappend i p = some s1) : s1.freeinode = s.freeinode := by
  rw [Mkfs.iappend] at h
  split at h
  · cases h
  · split at h
    · cases h
    · next hloop => exact (winode_freeinode h).trans (iappendLoop_freeinode hloop)

theorem appends_freeinode (chunks : List (List UInt8))
    (h : chunks.foldlM (fun s c => s.iappend i c) s = some s1) : s1.freeinode = s.freeinode := by
  induction chunks generalizing s with
  | nil =>
    cases h
    rfl
  | cons c chunks ih =>
    rw [foldlM_cons, bind_eq_bind, bind_eq_some_iff] at h
    obtain ⟨s2, hstep, hrun⟩ := h
    exact (ih hrun).trans (iappend_freeinode hstep)

theorem addFile_freeinode (h : s.addFile file = some s1) :
    s1.freeinode = s.freeinode + 1 := by
  rw [Mkfs.addFile, ite_none_left_eq_some, ite_none_left_eq_some] at h
  obtain ⟨-, -, h⟩ := h
  split at h
  · cases h
  · next s2 inum hialloc =>
    rw [Mkfs.ialloc, map_eq_some_iff] at hialloc
    obtain ⟨s3, hwinode, heq⟩ := hialloc
    obtain ⟨rfl, rfl⟩ := Prod.mk.inj heq
    split at h
    · cases h
    · next happend =>
      exact (appends_freeinode _ h).trans
        ((iappend_freeinode happend).trans (winode_freeinode hwinode))

theorem addFiles_freeinode (files : List InputFile) (h : files.foldlM Mkfs.addFile s = some s1) :
    s1.freeinode = s.freeinode + files.length := by
  induction files generalizing s with
  | nil =>
    cases h
    rfl
  | cons file files ih =>
    rw [foldlM_cons, bind_eq_bind, bind_eq_some_iff] at h
    obtain ⟨s2, hadd, hrun⟩ := h
    rw [ih hrun, addFile_freeinode hadd, length_cons]
    omega

theorem finish_freeinode (h : (s.fixRoot.bind fun s => s.balloc s.freeblock) = some s1) :
    s1.freeinode = s.freeinode := by
  obtain ⟨s2, hfix, hballoc⟩ := bind_eq_some_iff.mp h
  rw [balloc, ite_none_right_eq_some] at hballoc
  obtain ⟨-, heq⟩ := hballoc
  cases heq
  rw [wsect_freeinode]
  rw [fixRoot] at hfix
  split at hfix
  · cases hfix
  · exact winode_freeinode hfix

/-! ## Empty files -/

/-- An empty file with a name of one letter. -/
def emptyFile : InputFile where
  arg := [97]
  reads := []
  chunk := nofun

/-- The image of empty files only: an inode for each file, and the bytes of the root directory. -/
structure Empties (s : Mkfs) (n : Nat) : Prop where
  inodes : s.freeinode = n + 2
  image : ∃ bytes, Image s (update (fun _ => []) ROOTINO bytes) ∧
    bytes.length = DIRENT * (n + 2)

theorem Empties.addFile (h : Empties s n) (hn : n < 190) :
    ∃ s1, s.addFile emptyFile = some s1 ∧ Empties s1 (n + 1) := by
  obtain ⟨hfree, bytes, himage, hlen⟩ := h
  have hnum : NINODES = 200 := rfl
  have hroot : ROOTINO = 1 := rfl
  have hdirent : DIRENT = 16 := rfl
  obtain ⟨s2, hialloc, himage2, hfree2⟩ := himage.ialloc (by omega) T_FILE (by decide)
  have htotal := himage2.total
  rw [sum_root (by omega), hlen] at htotal
  have hfits : Fits s2 (update (fun _ => []) ROOTINO bytes ROOTINO).length
      (direntBytes s.freeinode [97]).length := by
    rw [Fits, htotal, update_self, hlen, length_direntBytes]
    have hcost : ∀ k, k ≤ DIRENT * 192 → cost k ≤ 3 := by
      intro k hk
      have hbsize : BSIZE = 1024 := rfl
      have hndirect : NDIRECT = 12 := rfl
      rw [cost, blocks, hbsize, hndirect, if_neg (by omega)]
      omega
    have hold := hcost (DIRENT * (n + 2)) (Nat.mul_le_mul_left _ (by omega))
    have hnew := hcost (DIRENT * (n + 2) + DIRENT) (by rw [hdirent]; omega)
    have hmeta : nmeta = 47 := rfl
    have hsize : FSSIZE = 2000 := rfl
    have hmax : MAXFILE * BSIZE = 274432 := rfl
    rw [hdirent] at hold hnew ⊢
    omega
  obtain ⟨s3, happend, himage3, hfree3⟩ := himage2.iappend_some (i := ROOTINO) (by omega) hfits
  refine ⟨s3, ?_, by omega, bytes ++ direntBytes s.freeinode [97], ?_, ?_⟩
  · rw [Mkfs.addFile, if_neg (by decide), if_neg (by decide), hialloc]
    dsimp only
    have hname : dirName (shortname emptyFile.arg) = [97] := rfl
    rw [hname, happend]
    rfl
  · rw [update_idem, update_self] at himage3
    exact himage3
  · rw [length_append, hlen, length_direntBytes]
    ring

theorem Empties.addFiles (n : Nat) (hn : n ≤ 190) (h : Empties s 0) :
    ∃ s1, (List.replicate n emptyFile).foldlM Mkfs.addFile s = some s1 ∧ Empties s1 n := by
  induction n with
  | zero => exact ⟨s, rfl, h⟩
  | succ n ih =>
    obtain ⟨s1, hrun, hempty⟩ := ih (by omega)
    obtain ⟨s2, hadd, hempty2⟩ := hempty.addFile (by omega)
    refine ⟨s2, ?_, hempty2⟩
    rw [replicate_succ', foldlM_append, hrun, bind_eq_bind, bind_some, foldlM_cons, hadd]
    rfl

/-- `mkfs` runs to its end on any small number of empty files. -/
theorem main_empties (n : Nat) (hn : n ≤ 190) :
    ∃ s, main (List.replicate n emptyFile) = some s := by
  obtain ⟨s0, hroot, himage, hentries, hfree⟩ := makeRoot_some
  have hempty : Empties s0 0 := ⟨hfree, _, himage, length_entries rootEntries⟩
  obtain ⟨s, hrun, -, bytes, himage', -⟩ := hempty.addFiles n hn
  refine ⟨s.finished, ?_⟩
  rw [main, hroot, bind_some, hrun, bind_some]
  exact himage'.finish

/-! ## The image of a whole run -/

/-- An image with an inode beyond the inode table is not as the kernel expects it. -/
theorem not_wellFormed_of_freeinode (h : NINODES < s.freeinode) :
    ¬ WellFormed s.disk sb s.inums := by
  intro hwf
  have hmem : NINODES ∈ s.inums := (mem_inums (by omega)).mpr ⟨by decide, h⟩
  exact Nat.lt_irrefl _ (hwf.numbers NINODES hmem)

/-- The parts of a run of `main`. -/
theorem main_parts {files : List InputFile} (h : main files = some s1) :
    ∃ s0 s, makeRoot = some s0 ∧ files.foldlM Mkfs.addFile s0 = some s ∧
      (s.fixRoot.bind fun s => s.balloc s.freeblock) = some s1 := by
  obtain ⟨s0, hroot, h⟩ := bind_eq_some_iff.mp h
  obtain ⟨s, hfiles, h⟩ := bind_eq_some_iff.mp h
  exact ⟨s0, s, hroot, hfiles, h⟩

/-- When `mkfs` runs to its end, its image is well formed exactly if every inode number fits the
inode table and the entries of the root directory do not end with a block. -/
theorem main_wellFormed_iff {files : List InputFile} (h : main files = some s) :
    WellFormed s.disk sb s.inums ↔ files.length ≤ 198 ∧ (files.length + 2) % 64 ≠ 0 := by
  obtain ⟨s0, s2, hroot, hfiles, hfinish⟩ := main_parts h
  obtain ⟨s0', hroot', himage, hentries, hfree⟩ := makeRoot_some
  cases hroot.symm.trans hroot'
  have hnum : NINODES = 200 := rfl
  by_cases hlen : files.length ≤ 198
  · obtain ⟨content, es, himage2, hentries2, hes, hfree2⟩ :=
      himage.addFiles hentries (by omega) files (by omega) hfiles
    cases himage2.finish.symm.trans hfinish
    have hcount : es.length = files.length + 2 := by
      rw [hes, Nat.add_comm]
      rfl
    have hmod : (content ROOTINO).length % BSIZE = 0 ↔ (files.length + 2) % 64 = 0 := by
      have hbsize : BSIZE = 1024 := rfl
      have hdirent : DIRENT = 16 := rfl
      rw [hentries2.bytes, length_entries, hcount, hbsize, hdirent]
      omega
    constructor
    · intro hwf
      refine ⟨hlen, fun hfull => ?_⟩
      exact himage2.not_wellFormed (by omega) (hmod.mpr hfull) hwf
    · rintro ⟨-, hpart⟩
      exact himage2.wellFormed (by omega) hentries2 fun hfull => hpart (hmod.mp hfull)
  · have hmany : NINODES < s.freeinode := by
      rw [finish_freeinode hfinish, addFiles_freeinode files hfiles]
      omega
    exact ⟨fun hwf => absurd hwf (not_wellFormed_of_freeinode hmany), fun hok => absurd hok.1 hlen⟩

/-- With no input files the root directory has two entries. -/
theorem main_wellFormed_nil : ∃ s, main [] = some s ∧ WellFormed s.disk sb s.inums := by
  obtain ⟨s, hs⟩ := main_empties 0 (by decide)
  exact ⟨s, hs, (main_wellFormed_iff hs).mpr (by decide)⟩

/-- With 62 empty files the 64 entries of the root directory fill a block, and the size of the
directory covers a block that does not exist. -/
theorem main_not_wellFormed : ∃ s, main (List.replicate 62 emptyFile) = some s ∧
    ¬ WellFormed s.disk sb s.inums := by
  obtain ⟨s0, hroot, himage, hentries, hfree⟩ := makeRoot_some
  have hempty : Empties s0 0 := ⟨hfree, _, himage, length_entries rootEntries⟩
  obtain ⟨s, hrun, hempty'⟩ := hempty.addFiles 62 (by decide)
  obtain ⟨bytes, himage', hlen⟩ := hempty'.image
  refine ⟨s.finished, ?_, himage'.not_wellFormed (by rw [hempty'.inodes]; decide) ?_⟩
  · rw [main, hroot, Option.bind_some, hrun, Option.bind_some]
    exact himage'.finish
  · rw [update_self, hlen]
    decide

end Mkfs

end EAFITos
