/-
The invariant of the file system between operations, and what `writei` and `readi` mean for it: every
inode has the bytes of its file in its blocks, and the bitmap marks those blocks and no others.
-/
import EAFITos.FsIo

namespace EAFITos

open Function List

variable {i m k tot : Nat}

/-- The block maps of the inodes on the disk. -/
def maps (sb : Superblock) (disk : Disk) (i : Nat) : Nat → Nat :=
  if i < sb.ninodes then (disk.inode sb i).addrs else fun _ => 0

/-- The bytes of a file. -/
def Disk.bytes (disk : Disk) (d : Dinode) : List UInt8 :=
  (range d.size).map fun x => disk (slot disk d.addrs (x / BSIZE)) (x % BSIZE)

/-- The blocks of every inode hold `full`, and its file is a first part of that. -/
structure FsInv (sb : Superblock) (disk : Disk) (nb : Nat → Nat) (full : Nat → List UInt8) :
    Prop where
  wf : sb.Wf
  volume : Volume sb disk (maps sb disk) nb full
  sizes : ∀ i, i < sb.ninodes → (disk.inode sb i).size ≤ (full i).length

/-- A well-formed file system. -/
def FsOk (sb : Superblock) (disk : Disk) : Prop := ∃ nb full, FsInv sb disk nb full

/-- The in-memory inode is the one on the disk. -/
structure Loaded (sb : Superblock) (disk : Disk) (ip : Inode) : Prop where
  inum : ip.inum < sb.ninodes
  inode : ip.toDinode = disk.inode sb ip.inum

variable {sb : Superblock} {disk : Disk} {nb : Nat → Nat} {full : Nat → List UInt8}
  {ip ip' : Inode} {s s' : Fs} {src : List UInt8} {off n : Nat}

theorem Stored.bytes_eq {d : Dinode} {bytes : List UInt8} (h : Stored disk d.addrs m bytes)
    (hsize : d.size ≤ bytes.length) :
    disk.bytes d = bytes.take d.size := by
  have hlen := h.length
  refine ext_getD ?_ fun x hx => ?_
  · rw [Disk.bytes, length_map, length_range, length_take, Nat.min_eq_left hsize]
  · rw [Disk.bytes, length_map, length_range] at hx
    rw [getD_take hx, ← h.data x (by omega), Disk.bytes, getD_eq_getElem?_getD,
      getElem?_map, getElem?_range hx]
    rfl

theorem Disk.length_bytes (disk : Disk) (d : Dinode) : (disk.bytes d).length = d.size := by
  rw [Disk.bytes, length_map, length_range]

theorem maps_of_lt (h : i < sb.ninodes) : maps sb disk i = (disk.inode sb i).addrs := if_pos h

namespace FsInv

section

variable (h : FsInv sb disk nb full)
include h

section

variable (hi : i < sb.ninodes)
include hi

theorem stored : Stored disk (disk.inode sb i).addrs (nb i) (full i) := by
  rw [← maps_of_lt hi]
  exact h.volume.filed.files i

theorem bytes_eq : disk.bytes (disk.inode sb i) = (full i).take (disk.inode sb i).size :=
  (h.stored hi).bytes_eq (h.sizes i hi)

theorem size_le : (disk.inode sb i).size ≤ MAXFILE * BSIZE := Nat.le_trans (h.sizes i hi)
    (Nat.le_trans (h.stored hi).length (Nat.mul_le_mul_right _ (h.stored hi).nb_le))

/-- Every block up to the end of the file is there. -/
theorem slot_ne_zero {bn : Nat} (hbn : bn < blocks (disk.inode sb i).size) :
    slot disk (disk.inode sb i).addrs bn ≠ 0 := by
  refine ((h.stored hi).slots bn).mpr ?_
  have hlen := Nat.le_trans (h.sizes i hi) (h.stored hi).length
  have hbsize : BSIZE = 1024 := rfl
  rw [blocks, hbsize] at hbn
  rw [hbsize] at hlen
  omega

end

end

end FsInv

namespace Loaded

theorem addrs (h : Loaded sb disk ip) : ip.addrs = maps sb disk ip.inum := by
  rw [maps_of_lt h.inum, ← h.inode]

theorem size (h : Loaded sb disk ip) : ip.size = (disk.inode sb ip.inum).size := by
  rw [← h.inode]

end Loaded

/-- The addresses of a file fit into an inode. -/
theorem Volume.addrs_lt {heads : Nat → Nat → Nat} (h : Volume sb disk heads nb full) (hwf : sb.Wf)
    (hk : k ≤ NDIRECT) : heads i k < 2 ^ 32 := by
  by_cases hzero : heads i k = 0
  · rw [hzero]
    decide
  · have hused : InUse sb disk (heads i k) := by
      rcases Nat.lt_or_eq_of_le hk with hlt | rfl
      · have hslot := h.filed.exact.inUse (i, .ofIndex k)
        rw [refs, Place.ofIndex_direct hlt, Place.ref, if_pos hlt] at hslot
        exact hslot hzero
      · exact h.filed.indirect_used hzero
    exact Nat.lt_trans hused.2.1 hwf.size

/-! ## The inode goes back to its block -/

section Iupdate

variable {disk0 : Disk} {nb' : Nat → Nat} {full' : Nat → List UInt8}

theorem Volume.fits (hwf : sb.Wf)
    (hvolume : Volume sb disk (update (maps sb disk0) ip.inum ip.addrs) nb' full')
    (hlast : ∀ k, NDIRECT < k → ip.addrs k = 0) (hsize : ip.size ≤ (full' ip.inum).length) :
    ip.toDinode.Fits where
  size := by
    have hstored := hvolume.filed.files ip.inum
    have hle := Nat.le_trans hstored.length (Nat.mul_le_mul_right _ hstored.nb_le)
    have hmax : MAXFILE * BSIZE < 2 ^ 32 := by decide
    omega
  addrs := by
    intro k
    by_cases hk : k ≤ NDIRECT
    · have hlt := hvolume.addrs_lt hwf (i := ip.inum) hk
      rwa [update_self] at hlt
    · rw [hlast k (Nat.not_le.mp hk)]
      decide
  last := hlast

theorem inode_setInode_other (hwf : sb.Wf) (hbefore : ∀ b, b < sb.bmapstart → disk b = disk0 b)
    (d : Dinode) {j : Nat} (hj : j < sb.ninodes) (hne : j ≠ i) :
    (disk.setInode sb i d).inode sb j = disk0.inode sb j := by
  rw [Disk.inode_setInode_of_ne _ _ _ hne]
  exact Disk.inode_congr (hbefore _ (hwf.inodes j hj))

/-- The inode is written to its block. -/
theorem FsInv.iupdate (hinv : FsInv sb disk0 nb full) (hinum : ip.inum < sb.ninodes)
    (hvolume : Volume sb disk (update (maps sb disk0) ip.inum ip.addrs) nb' full')
    (hbefore : ∀ b, b < sb.bmapstart → disk b = disk0 b) (hlast : ∀ k, NDIRECT < k → ip.addrs k = 0)
    (hsize : ip.size ≤ (full' ip.inum).length) (hother : ∀ j, j ≠ ip.inum → full' j = full j) :
    FsInv sb (disk.setInode sb ip.inum ip.toDinode) nb' full' := by
  have hself := Disk.inode_setInode disk sb ip.inum (hvolume.fits hinv.wf hlast hsize)
  have hothers := fun j => inode_setInode_other (j := j) (i := ip.inum) hinv.wf hbefore ip.toDinode
  have hmaps : maps sb (disk.setInode sb ip.inum ip.toDinode) =
      update (maps sb disk0) ip.inum ip.addrs := by
    funext j
    by_cases hj : j = ip.inum
    · rw [hj, update_self, maps_of_lt hinum, hself]
    · rw [update_of_ne hj, maps, maps]
      split
      · next hlt => rw [hothers j hlt hj]
      · rfl
  refine ⟨hinv.wf, ?_, fun j hj => ?_⟩
  · rw [hmaps]
    exact hvolume.update_inode hinv.wf (hinv.wf.inodes _ hinum) _
  · by_cases hji : j = ip.inum
    · rw [hji, hself]
      exact hsize
    · rw [hothers j hj hji, hother j hji]
      exact hinv.sizes j hj

end Iupdate

/-! ## `writei` -/

theorem int32_of_lt {x : Nat} (h : x < 2 ^ 31) : int32 x = x := by
  rw [int32, BitVec.toInt_ofNat']
  exact Int.bmod_eq_of_le (by omega) (by omega)

namespace Fs

theorem WriteEnd.imp_full (h : WriteEnd sb src n m s off tot k)
    (himp : Full sb s.disk → Full sb s'.disk) : WriteEnd sb src n m s' off tot k := by
  cases h with
  | all heq => exact .all heq
  | fault hlt => exact .fault hlt
  | noBlock hlt hfull hm => exact .noBlock hlt (himp hfull) hm

/-- `writei` of `n` bytes at `off` in a file with `m` blocks has counted `tot` of them; `k` of them
are in the blocks. -/
structure Written (sb : Superblock) (s : Fs) (ip : Inode) (src : List UInt8) (off n m : Nat)
    (ip' : Inode) (tot k : Nat) (s' : Fs) : Prop where
  ok : FsOk sb s'.disk
  loaded : Loaded sb s'.disk ip'
  inum : ip'.inum = ip.inum
  size : ip'.size = max ip.size (off + tot)
  bytes : s'.disk.bytes ip'.toDinode =
    (splice (s.disk.bytes ip.toDinode) (src.take k) off).take (max ip.size (off + tot))
  others : ∀ j, j < sb.ninodes → j ≠ ip.inum → s'.disk.inode sb j = s.disk.inode sb j ∧
    s'.disk.bytes (s.disk.inode sb j) = s.disk.bytes (s.disk.inode sb j)
  le : tot ≤ k ∧ k ≤ src.length ∧ tot ≤ n
  stop : WriteEnd sb src n m s' (off + tot) tot k

/-- The end of `writei` after its loop. -/
theorem writeiEnd_spec (hinv : FsInv sb s.disk nb full) (hloaded : Loaded sb s.disk ip)
    (hoff : off ≤ ip.size) {r : Inode × Nat × Nat} {s1 : Fs} {nblocks : Nat}
    (hwrote : Wrote sb (maps sb s.disk) nb full ip s src off n 0 r s1 nblocks k) :
    (writeiEnd sb r.1 r.2.1).Holds s1
      (fun ip' s' => Written sb s ip src off n (nb ip.inum) ip' r.2.2 k s') fun _ => False := by
  obtain ⟨ip1, off1, tot⟩ := r
  obtain ⟨hgrown, hoff1, ⟨-, hk, hksrc, hn⟩, hstop⟩ := hwrote
  dsimp only at hgrown hoff1 hk hn hstop ⊢
  rw [Nat.add_zero] at hoff1
  rw [drop_zero, Nat.sub_zero] at hgrown
  have hlen : (src.take k).length = k := by rw [length_take, Nat.min_eq_left hksrc]
  have hold : ip.size ≤ (full ip.inum).length := by
    rw [hloaded.size]
    exact hinv.sizes _ hloaded.inum
  generalize hip2 : (if ip1.size < off1 then { ip1 with size := off1 } else ip1 : Inode) = ip2
  have hinum : ip2.inum = ip.inum := by
    rw [← hip2, hgrown.same]
    split <;> rfl
  have haddrs : ip2.addrs = ip1.addrs := by
    rw [← hip2]
    split <;> rfl
  have hsize : ip2.size = max ip.size (off + tot) := by
    have hsize1 : ip1.size = ip.size := by rw [hgrown.same]
    rw [← hip2]
    split
    · dsimp only
      omega
    · omega
  -- the inode with its new size goes to the disk
  have hvolume := hgrown.volume
  rw [← haddrs, ← hinum] at hvolume
  have hsize' : ip2.size ≤ (update full ip2.inum
      (splice (full ip2.inum) (src.take k) off) ip2.inum).length := by
    rw [update_self, hinum, length_splice (Nat.le_trans hoff hold), hlen, hsize]
    omega
  have hlast : ∀ j, NDIRECT < j → ip2.addrs j = 0 := by
    intro j hj
    rw [haddrs, hgrown.last j hj, hloaded.addrs, maps_of_lt hloaded.inum]
    exact (Block.dinode_fits _ _).last j hj
  have hinum2 : ip2.inum < sb.ninodes := by
    rw [hinum]
    exact hloaded.inum
  have hinv' := hinv.iupdate hinum2 hvolume hgrown.before hlast hsize'
    fun j hj => update_of_ne hj _ _
  have hself := Disk.inode_setInode s1.disk sb ip2.inum (hvolume.fits hinv.wf hlast hsize')
  rw [writeiEnd, hip2]
  simp only [iupdate, modify, logWrite, Prog.holds_bind, Prog.holds_update, Prog.holds_pure]
  change Written sb s ip src off n (nb ip.inum) ip2 tot k
    { disk := s1.disk.setInode sb ip2.inum ip2.toDinode, logged := _ }
  refine ⟨⟨_, _, hinv'⟩, ⟨hinum2, hself.symm⟩, hinum, hsize, ?_, fun j hj hne => ?_, ⟨hk, hksrc, hn⟩,
    ?_⟩
  · have hbytes := hinv'.bytes_eq hinum2
    have hbefore := hinv.bytes_eq hloaded.inum
    rw [hself, update_self, hsize] at hbytes
    rw [← hloaded.inode] at hbefore
    dsimp only
    rw [hbytes, hinum, hbefore, ← take_splice hoff hold, hlen, take_take]
    congr 1
    omega
  · rw [← hinum] at hne
    have hother := inode_setInode_other hinv.wf hgrown.before ip2.toDinode hj hne
    have hbytes := hinv'.bytes_eq hj
    rw [hother, update_of_ne hne] at hbytes
    refine ⟨hother, ?_⟩
    dsimp only
    rw [hbytes, hinv.bytes_eq hj]
  · rw [← hoff1]
    refine hstop.imp_full fun hfull b hb => ?_
    have hle := bblock_le sb b
    have hlt := hinv.wf.inodes _ hinum2
    exact (marked_update (by omega) _).trans (hfull b hb)

/-- `writei` inside of the file and up to its largest size. -/
theorem writei_spec (src : List UInt8) (hinv : FsInv sb s.disk nb full) (hloaded : Loaded sb s.disk ip)
    (hoff : off ≤ ip.size) (hmax : off + n ≤ MAXFILE * BSIZE) :
    (writei sb ip src off n).Holds s (fun r s' => ∃ tot k : Nat, r.2 = (tot : Int) ∧
        Written sb s ip src off n (nb ip.inum) r.1 tot k s') fun _ => False := by
  have hmaxfile : MAXFILE * BSIZE < 2 ^ 31 := by decide
  have hu32 : U32 = 2 ^ 32 := rfl
  have hmod : (off + n) % U32 = off + n := Nat.mod_eq_of_lt (by omega)
  rw [writei, hmod, if_neg (by omega), if_neg (by omega)]
  refine (writeiLoop_spec hinv.wf hinv.volume hloaded.addrs ?_ (by omega) (Nat.zero_le _)
    (Nat.zero_le _)).bind ?_
  · have hsize := hinv.sizes _ hloaded.inum
    rw [← hloaded.size] at hsize
    omega
  rintro ⟨ip1, off1, tot⟩ s1 ⟨nblocks, k, hwrote⟩
  refine (writeiEnd_spec hinv hloaded hoff hwrote).bind fun ip' s' hwritten => ?_
  have htot : tot ≤ n := hwritten.le.2.2
  exact (Prog.holds_pure _).mpr ⟨tot, k, int32_of_lt (by omega), hwritten⟩

/-- `writei` behind the end of the file, or beyond the largest size, does nothing. -/
theorem writei_refused (sb : Superblock) (src : List UInt8) (s : Fs) (hoff : off < U32)
    (hn : n < U32) (h : ip.size < off ∨ MAXFILE * BSIZE < off + n) :
    writei sb ip src off n s = .ok (ip, -1) s := by
  have hmaxfile : MAXFILE * BSIZE < 2 ^ 31 := by decide
  have hu32 : U32 = 2 ^ 32 := rfl
  rw [writei]
  by_cases hfirst : ip.size < off ∨ (off + n) % U32 < off
  · rw [if_pos hfirst]
    rfl
  · rw [if_neg hfirst, if_pos]
    · rfl
    · rw [hu32] at hoff hn hfirst ⊢
      omega

/-- The bytes that a read of a file returns. -/
def readBytes (bytes : List UInt8) (off n : Nat) : List UInt8 :=
  if off + n < U32 then (bytes.drop off).take n else []

theorem readResult_eq {bytes : List UInt8} {room : Nat} (hlen : bytes.length ≤ MAXFILE * BSIZE)
    (hroom : n ≤ room) :
    readResult bytes off n room =
      (((readBytes bytes off n).length : Int), readBytes bytes off n) := by
  have hmax : MAXFILE * BSIZE < 2 ^ 31 := by decide
  rw [readResult, readBytes]
  by_cases hwrap : off + n < U32
  · rw [if_pos hwrap]
    by_cases hoff : bytes.length < off
    · rw [if_pos (.inl hoff), drop_of_length_le (Nat.le_of_lt hoff), take_nil]
      rfl
    · rw [if_neg (by omega), readOut, if_pos (by omega), int32_of_lt (by omega)]
      have hbytes : (bytes.drop off).take (min n (bytes.length - off)) = (bytes.drop off).take n := by
        rw [← length_drop, ← take_take, take_length]
      rw [hbytes, length_take, length_drop]
  · rw [if_neg hwrap, if_pos (.inr (Nat.not_lt.mp hwrap))]
    rfl

/-- Without a fault, what is in the blocks is what is counted. -/
theorem Written.counted (h : Written sb s ip src off n m ip' tot k s') (hsrc : n ≤ src.length) :
    k = tot ∧ (tot < n → Full sb s'.disk) := by
  obtain ⟨-, -, hn⟩ := h.le
  cases h.stop with
  | all heq => exact ⟨heq.symm, fun hlt => absurd heq (Nat.ne_of_lt hlt)⟩
  | fault hlt =>
    have hle := step_le (off + tot) hn
    omega
  | noBlock _ hfull _ => exact ⟨rfl, fun _ => hfull⟩

theorem Written.bytes_counted (h : Written sb s ip src off n m ip' tot tot s')
    (hoff : off ≤ ip.size) :
    s'.disk.bytes ip'.toDinode = splice (s.disk.bytes ip.toDinode) (src.take tot) off := by
  have hlen : (splice (s.disk.bytes ip.toDinode) (src.take tot) off).length =
      max ip.size (off + tot) := by
    rw [length_splice (by rw [Disk.length_bytes]; exact hoff), Disk.length_bytes, length_take,
      Nat.min_eq_left h.le.2.1]
  rw [h.bytes, ← hlen, take_length]

/-- `readi` of any part of the inode's file returns that part of `bytes`, and changes nothing. -/
def Reads (sb : Superblock) (s : Fs) (ip : Inode) (bytes : List UInt8) : Prop :=
  ∀ off n room, off < U32 → n < U32 → n ≤ room →
    readi sb ip off n room s =
      .ok (ip, ((readBytes bytes off n).length : Int), readBytes bytes off n) s

theorem length_bytes_le (hok : FsOk sb s.disk) (hloaded : Loaded sb s.disk ip) :
    (s.disk.bytes ip.toDinode).length ≤ MAXFILE * BSIZE := by
  obtain ⟨nb, full, hinv⟩ := hok
  rw [Disk.length_bytes, hloaded.size]
  exact hinv.size_le hloaded.inum

theorem readi_result (room : Nat) (hok : FsOk sb s.disk) (hloaded : Loaded sb s.disk ip)
    (hoff : off < U32) (hn : n < U32) : readi sb ip off n room s =
      .ok (ip, readResult (s.disk.bytes ip.toDinode) off n room) s := by
  obtain ⟨nb, full, hinv⟩ := hok
  have hbytes := hinv.bytes_eq hloaded.inum
  have hstored := hinv.stored hloaded.inum
  have hfull := hinv.sizes _ hloaded.inum
  rw [← hloaded.inode] at hbytes hstored hfull
  obtain ⟨r, s', hrun, hr, hs'⟩ := (readi_spec sb room hstored hfull hoff hn).exists_ok
  rw [hrun, hr, hs', ← hbytes]

theorem reads (hok : FsOk sb s.disk) (hloaded : Loaded sb s.disk ip) :
    Reads sb s ip (s.disk.bytes ip.toDinode) := by
  intro off n room hoff hn hroom
  rw [readi_result room hok hloaded hoff hn, readResult_eq (length_bytes_le hok hloaded) hroom]

theorem slots_ne_zero (hok : FsOk sb s.disk) (hloaded : Loaded sb s.disk ip) {bn : Nat}
    (hbn : bn < blocks ip.size) : slot s.disk ip.addrs bn ≠ 0 := by
  obtain ⟨nb, full, hinv⟩ := hok
  rw [hloaded.addrs, maps_of_lt hloaded.inum]
  rw [hloaded.size] at hbn
  exact hinv.slot_ne_zero hloaded.inum hbn

/-- A write that does not fault: `tot` bytes are counted, and they replace those of the file. -/
structure Replaced (sb : Superblock) (s : Fs) (ip : Inode) (src : List UInt8) (off n : Nat)
    (ip' : Inode) (tot : Nat) (s' : Fs) : Prop where
  ok : FsOk sb s'.disk
  loaded : Loaded sb s'.disk ip'
  inum : ip'.inum = ip.inum
  le : tot ≤ n
  full : tot < n → Full sb s'.disk
  size : ip'.size = max ip.size (off + tot)
  bytes : s'.disk.bytes ip'.toDinode = splice (s.disk.bytes ip.toDinode) (src.take tot) off
  others : ∀ j, j < sb.ninodes → j ≠ ip.inum → s'.disk.inode sb j = s.disk.inode sb j ∧
    s'.disk.bytes (s.disk.inode sb j) = s.disk.bytes (s.disk.inode sb j)

theorem writei_replaces (hok : FsOk sb s.disk) (hloaded : Loaded sb s.disk ip)
    (hoff : off ≤ ip.size) (hmax : off + n ≤ MAXFILE * BSIZE) (hsrc : n ≤ src.length) :
    ∃ ip' tot s', writei sb ip src off n s = .ok (ip', (tot : Nat)) s' ∧
      Replaced sb s ip src off n ip' tot s' := by
  obtain ⟨nb, full, hinv⟩ := hok
  obtain ⟨⟨ip', r⟩, s', hrun, tot, k, hr, hwritten⟩ :=
    (writei_spec src hinv hloaded hoff hmax).exists_ok
  dsimp only at hr hwritten
  subst hr
  obtain ⟨rfl, hcounted⟩ := hwritten.counted hsrc
  exact ⟨ip', k, s', hrun, hwritten.ok, hwritten.loaded, hwritten.inum, hwritten.le.2.2, hcounted,
    hwritten.size, hwritten.bytes_counted hoff, hwritten.others⟩

/-- **Files are sequences of bytes.**  On a well-formed file system a read returns the bytes of the
file, and there are no holes.  A write replaces the bytes from `off` on by those that it counts, all
of them unless the disk is full, and nothing else; the file system stays well-formed, so that later
reads return the new bytes. -/
theorem files_are_bytes (hok : FsOk sb s.disk) (hloaded : Loaded sb s.disk ip) :
    Reads sb s ip (s.disk.bytes ip.toDinode) ∧
    (∀ bn, bn < blocks ip.size → slot s.disk ip.addrs bn ≠ 0) ∧
    ∀ src off n, off ≤ ip.size → off + n ≤ MAXFILE * BSIZE → n ≤ src.length →
      ∃ ip' tot s', writei sb ip src off n s = .ok (ip', (tot : Nat)) s' ∧
        Replaced sb s ip src off n ip' tot s' ∧
        Reads sb s' ip' (splice (s.disk.bytes ip.toDinode) (src.take tot) off) ∧
        ∀ bn, bn < blocks (max ip.size (off + tot)) → slot s'.disk ip'.addrs bn ≠ 0 := by
  refine ⟨reads hok hloaded, fun bn => slots_ne_zero hok hloaded, fun src off n hoff hmax hsrc => ?_⟩
  obtain ⟨ip', tot, s', hrun, hreplaced⟩ := writei_replaces hok hloaded hoff hmax hsrc
  refine ⟨ip', tot, s', hrun, hreplaced, ?_, fun bn hbn => ?_⟩
  · rw [← hreplaced.bytes]
    exact reads hreplaced.ok hreplaced.loaded
  · rw [← hreplaced.size] at hbn
    exact slots_ne_zero hreplaced.ok hreplaced.loaded hbn

/-! A small file system: inodes in block 2, the bitmap in block 3, and four blocks of data. -/

def smallSb : Superblock where
  size := 8
  nblocks := 4
  ninodes := 16
  nlog := 0
  logstart := 1
  inodestart := 2
  bmapstart := 3

/-- Inode 1 is an empty file, and the bits of the first four blocks are set. -/
def smallDisk : Disk := fun b x => if b = 2 ∧ x = 64 then 2 else if b = 3 ∧ x = 0 then 15 else 0

theorem smallSb_wf : smallSb.Wf where
  inodes := by decide
  start := by decide
  bitmap := by decide
  size := by decide

theorem small_ok : FsOk smallSb smallDisk := by
  have haddrs : ∀ i, i < 16 → ∀ k, k < 13 → (smallDisk.inode smallSb i).addrs k = 0 := by
    decide +kernel
  have hmaps : maps smallSb smallDisk = fun _ _ => 0 := by
    funext i k
    rw [maps]
    split
    · next hi =>
      by_cases hk : k < 13
      · exact haddrs i hi k hk
      · exact (Block.dinode_fits _ _).last k (Nat.not_lt.mp hk)
    · rfl
  have hsizes : ∀ i, i < 16 → (smallDisk.inode smallSb i).size ≤ 0 := by decide +kernel
  have hfree : ∀ b, b < 8 → 4 ≤ b → smallDisk.marked smallSb b = false := by decide +kernel
  have hmarked : ∀ b, b < 4 → smallDisk.marked smallSb b = true := by decide +kernel
  refine ⟨fun _ => 0, fun _ => [], smallSb_wf, ⟨?_, hmarked⟩, hsizes⟩
  rw [hmaps]
  refine Filed.empty smallDisk ?_
  rintro b ⟨hlo, hhi, hmark⟩
  rw [hfree b hhi hlo] at hmark
  cases hmark

theorem files_are_bytes_small : ∃ ip' tot s',
    writei smallSb ⟨smallDisk.inode smallSb 1, 1⟩ [7, 8] 0 2 ⟨smallDisk, []⟩ = .ok (ip', (tot : Nat)) s' ∧
      tot ≤ 2 ∧ s'.disk.bytes ip'.toDinode = ([7, 8] : List UInt8).take tot := by
  have hsize : smallDisk.bytes (smallDisk.inode smallSb 1) = [] := by decide +kernel
  have hloaded : Loaded smallSb smallDisk ⟨smallDisk.inode smallSb 1, 1⟩ := ⟨by decide, rfl⟩
  obtain ⟨-, -, hwrite⟩ := files_are_bytes (s := ⟨smallDisk, []⟩) small_ok hloaded
  obtain ⟨ip', tot, s', hrun, hreplaced, -, -⟩ :=
    hwrite [7, 8] 0 2 (Nat.zero_le _) (by decide) (by decide)
  refine ⟨ip', tot, s', hrun, hreplaced.le, ?_⟩
  have hbytes := hreplaced.bytes
  rw [hsize, splice, take_nil, drop_nil, append_nil, nil_append] at hbytes
  exact hbytes

end Fs

end EAFITos
