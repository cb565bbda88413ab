/-
`iappend` of `mkfs`: it stores its bytes behind those of the file, unless the file or the
image has no room for them, in which case `mkfs` stops.
-/
import EAFITos.MkfsBlocks

namespace EAFITos

open Function List

namespace Mkfs

variable {fbn n b : Nat}

variable {s s1 : Mkfs} {heads : Nat → Nat → Nat} {content : Nat → List UInt8} {din : Dinode}
  {i off : Nat}

variable {m : Nat} {s2 : Mkfs} {nb : Nat → Nat} {din1 : Dinode}

/-! ## Counting blocks -/

theorem blocks_of_mod (h : off % BSIZE = 0) : blocks off = off / BSIZE := by
  have hsize : BSIZE = 1024 := rfl
  rw [blocks]
  rw [hsize] at h ⊢
  omega

theorem blocks_of_mod_ne (h : off % BSIZE ≠ 0) : blocks off = off / BSIZE + 1 := by
  have hsize : BSIZE = 1024 := rfl
  rw [blocks]
  rw [hsize] at h ⊢
  omega

theorem blocks_add (hpos : 0 < n) (hfit : off % BSIZE + n ≤ BSIZE) :
    blocks (off + n) = off / BSIZE + 1 := by
  have hsize : BSIZE = 1024 := rfl
  rw [blocks]
  rw [hsize] at hfit ⊢
  omega

theorem blocks_mono (h : m ≤ n) : blocks m ≤ blocks n := Nat.div_le_div_right (by omega)

theorem cost_mono (h : m ≤ n) : cost m ≤ cost n := by
  have hblocks := blocks_mono h
  rw [cost, cost]
  split <;> split <;> omega

/-! ## Sectors -/

theorem sector_eq (h : b < 2 ^ 22) : sector b = b := by
  have hsize : BSIZE = 1024 := rfl
  have hword : U32 = 2 ^ 32 := rfl
  rw [sector, hsize, hword]
  omega

theorem rsect_eq (s : Mkfs) (h : b < FSSIZE) : s.rsect b = some (s.disk b) := by
  have hsize : FSSIZE = 2000 := rfl
  rw [rsect, sector_eq (by omega), if_pos h]

theorem rsect_none (s : Mkfs) (hlo : FSSIZE ≤ b) (hhi : b < 2 ^ 22) :
    s.rsect b = none := by
  rw [rsect, sector_eq hhi, if_neg (Nat.not_lt.mpr hlo)]

theorem wsect_disk (s : Mkfs) (h : b < FSSIZE) (buf : Block) :
    s.wsect b buf = { s with disk := update s.disk b buf } := by
  have hsize : FSSIZE = 2000 := rfl
  rw [wsect, sector_eq (by omega)]

/-! ## The block of an append -/

/-- The image in the middle of an append to the file of `i`. -/
structure Appending (s : Mkfs) (heads : Nat → Nat → Nat) (i : Nat) (din : Dinode)
    (content : Nat → List UInt8) : Prop where
  laid : Laid s.disk heads s.freeblock (fun i => blocks (content i).length) content
  indirect : ∀ i, heads i NDIRECT ≠ 0 ↔ NDIRECT < blocks (content i).length
  current : heads i = din.addrs
  last : ∀ k, NDIRECT < k → din.addrs k = 0

/-- The blocks before the data, and the inodes in use, stay as they are. -/
structure SameMeta (s s1 : Mkfs) : Prop where
  freeinode : s1.freeinode = s.freeinode
  disk : ∀ b, b < nmeta → s1.disk b = s.disk b

theorem SameMeta.trans (h : SameMeta s s1) (h' : SameMeta s1 s2) : SameMeta s s2 :=
  ⟨h'.freeinode.trans h.freeinode, fun b hb => (h'.disk b hb).trans (h.disk b hb)⟩

/-- The block `fbn` of the file is there for the bytes to come. -/
structure Ready (s s1 : Mkfs) (heads : Nat → Nat → Nat) (i : Nat) (din din1 : Dinode) (fbn : Nat)
    (content : Nat → List UInt8) : Prop where
  laid : Laid s1.disk (update heads i din1.addrs) s1.freeblock
    (update (fun i => blocks (content i).length) i (fbn + 1)) content
  indirect : din1.addrs NDIRECT ≠ 0 ↔ NDIRECT < fbn + 1
  last : ∀ k, NDIRECT < k → din1.addrs k = 0
  same : SameMeta s s1
  fields : din1 = { din with addrs := din1.addrs }

section

variable (h : Appending s heads i din content)
include h

theorem Appending.slot_ne {bn : Nat} :
    slot s.disk din.addrs bn ≠ 0 ↔ bn < blocks (content i).length := by
  rw [← h.current]
  exact (h.laid.files i).slots bn

theorem Appending.indirect_lt (hne : din.addrs NDIRECT ≠ 0) :
    nmeta ≤ din.addrs NDIRECT ∧ din.addrs NDIRECT < FSSIZE := by
  rw [← h.current] at hne ⊢
  obtain ⟨hlo, hlt⟩ := h.laid.handed.ref_lt (z := (i, .indirect)) hne
  exact ⟨hlo, Nat.lt_of_lt_of_le hlt h.laid.handed.hi⟩

/-- The file's last block has room left. -/
theorem Appending.ready_room (hblocks : blocks (content i).length = fbn + 1) :
    s.appendBlock din fbn = some (s, din, slot s.disk din.addrs fbn) ∧
      Ready s s heads i din din fbn content := by
  have hslot : slot s.disk din.addrs fbn ≠ 0 := h.slot_ne.mpr (by omega)
  constructor
  · rw [appendBlock]
    by_cases hdirect : fbn < NDIRECT
    · rw [slot, Place.ofIndex_direct hdirect, Place.ref, if_pos hdirect] at hslot ⊢
      rw [if_pos hdirect, if_neg hslot]
    · rw [slot, Place.ofIndex_entry (by omega), Place.ref] at hslot ⊢
      have hcond : ¬ (din.addrs NDIRECT = 0 ∨ NINDIRECT ≤ fbn - NDIRECT) := by
        intro hcond
        rw [if_pos hcond] at hslot
        exact hslot rfl
      have hne : din.addrs NDIRECT ≠ 0 := fun heq => hcond (.inl heq)
      rw [if_neg hcond] at hslot ⊢
      rw [if_neg hdirect, if_neg hne]
      dsimp only
      rw [rsect_eq s (h.indirect_lt hne).2]
      dsimp only
      rw [if_neg hslot]
  · have hsame : update heads i din.addrs = heads := by
      rw [← h.current, update_eq_self]
    refine ⟨?_, ?_, h.last, ⟨rfl, fun _ _ => rfl⟩, rfl⟩
    · rw [hsame, ← hblocks, update_eq_self i fun i => blocks (content i).length]
      exact h.laid
    · rw [← hblocks, ← h.current]
      exact h.indirect i

end

/-- What a failing append runs into: a sector outside of the image. -/
def NoBlock (s : Mkfs) (din : Dinode) (fbn : Nat) : Prop :=
  s.appendBlock din fbn = none ∨
    ∃ s1 din1 x, s.appendBlock din fbn = some (s1, din1, x) ∧ s1.rsect x = none

theorem Appending.direct_zero (h : Appending s heads i din content)
    (hblocks : blocks (content i).length = fbn) (hdirect : fbn < NDIRECT) : din.addrs fbn = 0 := by
  have hslot : ¬ slot s.disk din.addrs fbn ≠ 0 := mt h.slot_ne.mp (by omega)
  rwa [not_not, slot, Place.ofIndex_direct hdirect, Place.ref, if_pos hdirect] at hslot

theorem appendBlock_direct (s : Mkfs) (hdirect : fbn < NDIRECT) (hzero : din.addrs fbn = 0) :
    s.appendBlock din fbn = some ({ s with freeblock := s.freeblock + 1 },
        { din with addrs := update din.addrs fbn s.freeblock }, s.freeblock) := by
  rw [appendBlock, if_pos hdirect, if_pos hzero]

/-- A new block in a direct slot. -/
theorem Appending.ready_direct (h : Appending s heads i din content)
    (hblocks : blocks (content i).length = fbn) (hdirect : fbn < NDIRECT)
    (hfit : s.freeblock < FSSIZE) :
    Ready s { s with freeblock := s.freeblock + 1 } heads i din
      { din with addrs := update din.addrs fbn s.freeblock } fbn content := by
  have hzero := h.direct_zero hblocks hdirect
  have hlast : NDIRECT ≠ fbn := by omega
  refine ⟨?_, ?_, fun k hk => ?_, ⟨rfl, fun _ _ => rfl⟩, rfl⟩
  · have hlaid := h.laid.direct (i := i) hfit (by omega)
    rw [h.current, hblocks] at hlaid
    exact hlaid
  · dsimp only
    rw [update_of_ne hlast, ← h.current, h.indirect i, hblocks]
    omega
  · dsimp only
    rw [update_of_ne (by omega)]
    exact h.last k hk

theorem appendBlock_entry (s : Mkfs) (hfbn : NDIRECT ≤ fbn) (hne : din.addrs NDIRECT ≠ 0)
    (hlt : din.addrs NDIRECT < FSSIZE)
    (hzero : (s.disk (din.addrs NDIRECT)).uint (fbn - NDIRECT) = 0) :
    s.appendBlock din fbn = some ({ s with
      freeblock := s.freeblock + 1
      disk := update s.disk (din.addrs NDIRECT)
        ((s.disk (din.addrs NDIRECT)).setUint (fbn - NDIRECT) s.freeblock) }, din, s.freeblock) := by
  rw [appendBlock, if_neg (Nat.not_lt.mpr hfbn), if_neg hne]
  dsimp only
  rw [rsect_eq s hlt]
  dsimp only
  rw [if_pos hzero, wsect_disk _ hlt]

/-- The inode has an indirect block, and the file needs an entry of it. -/
theorem entry_zero (hlaid : Laid s.disk heads s.freeblock nb content)
    (hcurrent : heads i = din.addrs) (hfbn : NDIRECT ≤ nb i) (hmax : nb i < MAXFILE)
    (hne : din.addrs NDIRECT ≠ 0) :
    din.addrs NDIRECT < FSSIZE ∧ (s.disk (din.addrs NDIRECT)).uint (nb i - NDIRECT) = 0 := by
  have hfile : MAXFILE = NDIRECT + NINDIRECT := rfl
  constructor
  · rw [← hcurrent] at hne ⊢
    exact Nat.lt_of_lt_of_le (hlaid.handed.ref_lt (z := (i, .indirect)) hne).2 hlaid.handed.hi
  · have hslot := mt ((hlaid.files i).slots (nb i)).mp (Nat.lt_irrefl _)
    rw [not_not, slot, Place.ofIndex_entry hfbn, hcurrent, Place.ref, if_neg (by omega)] at hslot
    exact hslot

theorem appendBlock_first (s : Mkfs) (hfbn : NDIRECT ≤ fbn) (hzero : din.addrs NDIRECT = 0)
    (hfree : s.freeblock ≠ 0) :
    s.appendBlock din fbn = { s with freeblock := s.freeblock + 1 }.appendBlock
      { din with addrs := update din.addrs NDIRECT s.freeblock } fbn := by
  have hne : update din.addrs NDIRECT s.freeblock NDIRECT ≠ 0 := by
    rw [update_self]
    exact hfree
  have hnot : ¬ fbn < NDIRECT := Nat.not_lt.mpr hfbn
  rw [appendBlock, appendBlock, if_neg hnot, if_neg hnot, if_pos hzero]
  dsimp only
  rw [if_neg hne]

theorem appendBlock_none (s : Mkfs) (hfbn : NDIRECT ≤ fbn) (hne : din.addrs NDIRECT ≠ 0)
    (hnone : s.rsect (din.addrs NDIRECT) = none) :
    s.appendBlock din fbn = none := by
  rw [appendBlock, if_neg (Nat.not_lt.mpr hfbn), if_neg hne]
  dsimp only
  rw [hnone]

/-- The extra blocks that the next byte of the file needs. -/
theorem cost_succ_fresh (h : off % BSIZE = 0) : cost (off + 1) =
    cost off + if off / BSIZE = NDIRECT then 2 else 1 := by
  have hsize : BSIZE = 1024 := rfl
  have hnext : blocks (off + 1) = off / BSIZE + 1 :=
    blocks_add Nat.one_pos (by rw [h, hsize]; omega)
  rw [cost, cost, hnext, blocks_of_mod h]
  split <;> split <;> split <;> omega

theorem cost_succ_room (h : off % BSIZE ≠ 0) : cost (off + 1) = cost off := by
  have hlt := Nat.mod_lt off (y := BSIZE) (by decide)
  rw [cost, cost, blocks_add Nat.one_pos (by omega), blocks_of_mod_ne h]

theorem block_entry (hlaid : Laid s.disk heads s.freeblock nb content)
    (hcurrent : heads i = din.addrs) (hfbn : NDIRECT ≤ nb i) (hmax : nb i < MAXFILE)
    (hne : din.addrs NDIRECT ≠ 0) :
    (s.freeblock < FSSIZE → ∃ s1, s.appendBlock din (nb i) =
        some (s1, din, slot s1.disk din.addrs (nb i)) ∧
      Laid s1.disk heads s1.freeblock (update nb i (nb i + 1)) content ∧
      s1.freeblock = s.freeblock + 1 ∧ SameMeta s s1) ∧
    (FSSIZE ≤ s.freeblock → NoBlock s din (nb i)) := by
  have hfile : MAXFILE = NDIRECT + NINDIRECT := rfl
  have hsize : FSSIZE = 2000 := rfl
  have hhi := hlaid.handed.hi
  obtain ⟨hlt, hzero⟩ := entry_zero hlaid hcurrent hfbn hmax hne
  have hblock := appendBlock_entry s hfbn hne hlt hzero
  constructor
  · intro hfit
    refine ⟨{ s with
      freeblock := s.freeblock + 1
      disk := update s.disk (din.addrs NDIRECT)
        ((s.disk (din.addrs NDIRECT)).setUint (nb i - NDIRECT) s.freeblock) },
      ?_, ?_, rfl, rfl, fun b hb => update_of_ne ?_ _ _⟩
    · rw [hblock, slot, Place.ofIndex_entry hfbn, Place.ref, if_neg (by omega)]
      dsimp only
      rw [update_self, Block.uint_setUint _ _ (by omega)]
    · rw [← hcurrent] at hne ⊢
      exact hlaid.entry hfit hne hfbn hmax
    · rw [← hcurrent] at hne ⊢
      have hlow := (hlaid.handed.ref_lt (z := (i, .indirect)) hne).1
      change nmeta ≤ heads i NDIRECT at hlow
      omega
  · exact fun hfull => .inr ⟨_, _, _, hblock, rsect_none _ hfull (by omega)⟩

theorem Appending.first_entry (h : Appending s heads i din content)
    (hblocks : blocks (content i).length = NDIRECT) (hfit : s.freeblock < FSSIZE) :
    Laid s.disk (update heads i (update din.addrs NDIRECT s.freeblock))
      (s.freeblock + 1) (fun i => blocks (content i).length) content := by
  have hzero : heads i NDIRECT = 0 := by
    by_contra hne
    have hlt := (h.indirect i).mp hne
    omega
  rw [← h.current]
  exact h.laid.indirect hfit hzero

/-- The block of the next byte: there is one, or the image is full. -/
theorem Appending.block (h : Appending s heads i din content) (hoff : off = (content i).length)
    (hfbn : off / BSIZE < MAXFILE) :
    s.freeblock + (cost (off + 1) - cost off) ≤ FSSIZE ∧
      (∃ s1 din1, s.appendBlock din (off / BSIZE) =
          some (s1, din1, slot s1.disk din1.addrs (off / BSIZE)) ∧
        Ready s s1 heads i din din1 (off / BSIZE) content ∧
        s1.freeblock = s.freeblock + (cost (off + 1) - cost off)) ∨
    FSSIZE < s.freeblock + (cost (off + 1) - cost off) ∧ NoBlock s din (off / BSIZE) := by
  have hhi := h.laid.handed.hi
  have hlo := h.laid.handed.lo
  have hmeta : 0 < nmeta := by decide
  have hsize : FSSIZE = 2000 := rfl
  by_cases hmod : off % BSIZE = 0
  swap
  · have hblocks : blocks (content i).length = off / BSIZE + 1 := hoff ▸ blocks_of_mod_ne hmod
    obtain ⟨hblock, hready⟩ := h.ready_room hblocks
    rw [cost_succ_room hmod, Nat.sub_self]
    exact .inl ⟨hhi, s, din, hblock, hready, rfl⟩
  have hblocks : blocks (content i).length = off / BSIZE := hoff ▸ blocks_of_mod hmod
  rw [cost_succ_fresh hmod, Nat.add_sub_cancel_left]
  by_cases hdirect : off / BSIZE < NDIRECT
  · have hblock := appendBlock_direct s hdirect (h.direct_zero hblocks hdirect)
    rw [if_neg (Nat.ne_of_lt hdirect)]
    by_cases hfit : s.freeblock < FSSIZE
    · have hready := h.ready_direct hblocks hdirect hfit
      refine .inl ⟨hfit, _, _, ?_, hready, rfl⟩
      rw [hblock, slot, Place.ofIndex_direct hdirect, Place.ref, if_pos hdirect]
      dsimp only
      rw [update_self]
    · exact .inr ⟨by omega, .inr ⟨_, _, _, hblock, rsect_none _ (by omega) (by omega)⟩⟩
  have hge : NDIRECT ≤ off / BSIZE := Nat.not_lt.mp hdirect
  by_cases hfirst : off / BSIZE = NDIRECT
  · rw [if_pos hfirst]
    have hzero : din.addrs NDIRECT = 0 := by
      rw [← h.current]
      by_contra hne
      have hlt := (h.indirect i).mp hne
      omega
    have hblock := appendBlock_first s hge hzero (by omega)
    by_cases hfit : s.freeblock < FSSIZE
    swap
    · refine .inr ⟨by omega, .inl ?_⟩
      rw [hblock, appendBlock_none _ hge]
      · dsimp only
        rw [update_self]
        omega
      · dsimp only
        rw [update_self]
        exact rsect_none _ (by omega) (by omega)
    have hlaid := h.first_entry (hblocks.trans hfirst) hfit
    let din1 : Dinode := { din with addrs := update din.addrs NDIRECT s.freeblock }
    have hcurrent : update heads i din1.addrs i = din1.addrs := update_self _ _ _
    have hne : din1.addrs NDIRECT ≠ 0 := by
      dsimp only [din1]
      rw [update_self]
      omega
    obtain ⟨hroom, hfull⟩ := block_entry (s := { s with freeblock := s.freeblock + 1 }) hlaid hcurrent
      (by omega) (by omega) hne
    rw [hblocks] at hroom hfull
    by_cases hfit' : s.freeblock + 1 < FSSIZE
    · obtain ⟨s1, hentry, hlaid', hfree, hsame⟩ := hroom hfit'
      refine .inl ⟨by omega, s1, _, hblock.trans hentry, ⟨?_, ?_, fun k hk => ?_, ?_, rfl⟩, hfree⟩
      · exact hlaid'
      · exact iff_of_true hne (by omega)
      · exact (update_of_ne (by omega) _ _).trans (h.last k hk)
      · exact ⟨hsame.freeinode, hsame.disk⟩
    · refine .inr ⟨by omega, ?_⟩
      rw [NoBlock, hblock]
      exact hfull (by dsimp only; omega)
  · rw [if_neg hfirst]
    have hne : din.addrs NDIRECT ≠ 0 := by
      rw [← h.current]
      exact (h.indirect i).mpr (by omega)
    obtain ⟨hroom, hfull⟩ := block_entry h.laid h.current (by omega) (by omega) hne
    rw [hblocks] at hroom hfull
    by_cases hfit : s.freeblock < FSSIZE
    · obtain ⟨s1, hblock, hlaid, hfree, hsame⟩ := hroom hfit
      refine .inl ⟨hfit, s1, din, hblock, ⟨?_, ?_, h.last, hsame, rfl⟩, hfree⟩
      · rw [← h.current, update_eq_self]
        exact hlaid
      · exact iff_of_true hne (by omega)
    · exact .inr ⟨by omega, hfull (by omega)⟩

/-! ## The loop -/

/-- A round of the loop stores its bytes. -/
theorem Ready.write (hready : Ready s s1 heads i din din1 (off / BSIZE) content)
    (h : Appending s heads i din content) (hoff : off = (content i).length) (chunk : List UInt8)
    (hpos : 0 < chunk.length) (hfit : off % BSIZE + chunk.length ≤ BSIZE) :
    ∃ buf, s1.rsect (slot s1.disk din1.addrs (off / BSIZE)) = some buf ∧
      Appending (s1.wsect (slot s1.disk din1.addrs (off / BSIZE))
        (buf.storeBytes (off - off / BSIZE * BSIZE) chunk)) (update heads i din1.addrs) i din1
        (update content i (content i ++ chunk)) ∧
      SameMeta s1 (s1.wsect (slot s1.disk din1.addrs (off / BSIZE))
        (buf.storeBytes (off - off / BSIZE * BSIZE) chunk)) := by
  have hself : update heads i din1.addrs i = din1.addrs := update_self _ _ _
  have hnb : update (fun i => blocks (content i).length) i (off / BSIZE + 1) i =
      off / BSIZE + 1 := update_self _ _ _
  have hslot : slot s1.disk (update heads i din1.addrs i) (off / BSIZE) ≠ 0 :=
    ((hready.laid.files i).slots _).mpr (by omega)
  obtain ⟨hlow, hlt⟩ := hready.laid.handed.ref_lt (z := (i, .ofIndex (off / BSIZE))) hslot
  have hlaid := hready.laid.write (i := i) (Nat.le_of_eq hoff) (by omega) hfit
  rw [hself] at hlaid
  change nmeta ≤ slot s1.disk (update heads i din1.addrs i) (off / BSIZE) at hlow
  change slot s1.disk (update heads i din1.addrs i) (off / BSIZE) < _ at hlt
  rw [hself] at hlow hlt
  have hin := Nat.lt_of_lt_of_le hlt hready.laid.handed.hi
  have hpos' : off - off / BSIZE * BSIZE = off % BSIZE := by
    have hmod := Nat.div_add_mod off BSIZE
    rw [Nat.mul_comm] at hmod
    omega
  have hlen : blocks ((content i ++ chunk).length) = off / BSIZE + 1 := by
    rw [length_append, ← hoff]
    exact blocks_add hpos hfit
  have hsplice : splice (content i) chunk off = content i ++ chunk := by
    rw [hoff]
    exact splice_end _ _
  refine ⟨_, rsect_eq s1 hin, ?_, ?_⟩
  all_goals rw [hpos', wsect_disk s1 hin]
  · refine ⟨?_, fun i' => ?_, hself, hready.last⟩
    · rw [hsplice] at hlaid
      have hblocks : (fun i' => blocks (update content i (content i ++ chunk) i').length) =
          update (fun i => blocks (content i).length) i (off / BSIZE + 1) := by
        funext i'
        by_cases hi : i' = i
        · subst hi
          rw [update_self, update_self, hlen]
        · rw [update_of_ne hi, update_of_ne hi]
      rw [hblocks]
      exact hlaid
    · by_cases hi : i' = i
      · subst hi
        rw [update_self, update_self, hlen]
        exact hready.indirect
      · rw [update_of_ne hi, update_of_ne hi]
        exact h.indirect i'
  · exact ⟨rfl, fun b hb => update_of_ne (by omega) _ _⟩

/-- What the loop of `iappend` does when the bytes fit: they are behind those of the file. -/
structure Appended (s s1 : Mkfs) (heads : Nat → Nat → Nat) (i : Nat) (din din1 : Dinode)
    (content : Nat → List UInt8) (p : List UInt8) : Prop where
  appending : Appending s1 (update heads i din1.addrs) i din1
    (update content i (content i ++ p))
  freeblock : s1.freeblock =
    s.freeblock + (cost ((content i).length + p.length) - cost (content i).length)
  same : SameMeta s s1
  fields : din1 = { din with addrs := din1.addrs }

/-- The bytes fit in the file and in the image. -/
def Fits (s : Mkfs) (old new : Nat) : Prop :=
  old + new ≤ MAXFILE * BSIZE ∧ s.freeblock + (cost (old + new) - cost old) ≤ FSSIZE

theorem Appending.length_le (h : Appending s heads i din content) :
    (content i).length ≤ MAXFILE * BSIZE := by
  have hfile := h.laid.files i
  exact Nat.le_trans hfile.length (Nat.mul_le_mul_right _ hfile.nb_le)

theorem Appending.appended_nil (h : Appending s heads i din content) :
    Appended s s heads i din din content [] := by
  have hheads : update heads i din.addrs = heads := by
    rw [← h.current, update_eq_self]
  refine ⟨?_, (by simp), ⟨rfl, fun _ _ => rfl⟩, rfl⟩
  rw [hheads, append_nil, update_eq_self]
  exact h

/-- A round that stores `n` bytes leaves the question whether the rest fits. -/
theorem fits_round (hpos : 0 < n) (hfit : off % BSIZE + n ≤ BSIZE) (hle : n ≤ m)
    (hfree : s2.freeblock = s.freeblock + (cost (off + 1) - cost off)) :
    Fits s2 (off + n) (m - n) ↔ Fits s off m := by
  have hsame : cost (off + n) = cost (off + 1) := by
    rw [cost, cost, blocks_add hpos hfit, blocks_add Nat.one_pos (by omega)]
  have hmono := cost_mono (Nat.le_add_right off 1)
  have hmono' := cost_mono (show off + 1 ≤ off + m by omega)
  rw [Fits, Fits, hsame, hfree, show off + n + (m - n) = off + m by omega]
  omega

theorem Appended.trans {din2 : Dinode} {chunk rest : List UInt8} (hsame : SameMeta s s1)
    (hfields : din1 = { din with addrs := din1.addrs }) (hfree : s1.freeblock =
      s.freeblock + (cost ((content i).length + chunk.length) - cost (content i).length))
    (hrest : Appended s1 s2 (update heads i din1.addrs) i din1 din2
      (update content i (content i ++ chunk)) rest) :
    Appended s s2 heads i din din2 content (chunk ++ rest) := by
  refine ⟨?_, ?_, hsame.trans hrest.same, ?_⟩
  · have happ := hrest.appending
    rw [update_idem, update_idem, update_self, append_assoc] at happ
    exact happ
  · have hmono := cost_mono (Nat.le_add_right (content i).length chunk.length)
    have hmono' := cost_mono (Nat.le_add_right ((content i).length + chunk.length) rest.length)
    rw [hrest.freeblock, hfree, update_self, length_append, length_append, ← Nat.add_assoc]
    omega
  · rw [hrest.fields, hfields]

theorem Appending.loop (h : Appending s heads i din content) (hoff : off = (content i).length)
    (p : List UInt8) :
    Fits s off p.length ∧ (∃ s1 din1, s.iappendLoop din off p = some (s1, din1, off + p.length) ∧
      Appended s s1 heads i din din1 content p) ∨
    ¬ Fits s off p.length ∧ s.iappendLoop din off p = none := by
  induction hn : p.length using Nat.strongRecOn generalizing s din heads content off p with
  | _ n ih =>
    subst hn
    rw [iappendLoop]
    by_cases hp : p = []
    · subst hp
      rw [dif_pos rfl]
      refine .inl ⟨⟨hoff ▸ h.length_le, ?_⟩, s, din, rfl, h.appended_nil⟩
      rw [length_nil, Nat.add_zero, Nat.sub_self]
      exact h.laid.handed.hi
    have hlen : 0 < p.length := length_pos_of_ne_nil hp
    rw [dif_neg hp]
    dsimp only
    by_cases hfbn : off / BSIZE < MAXFILE
    swap
    · rw [if_neg hfbn]
      refine .inr ⟨fun hfits => hfbn ?_, rfl⟩
      exact Nat.div_lt_of_lt_mul (by rw [Nat.mul_comm]; have hle := hfits.1; omega)
    rw [if_pos hfbn]
    obtain ⟨hfit1, s1, din1, hblock, hready, hfree⟩ | ⟨hfull, hno⟩ := h.block hoff hfbn
    swap
    · have hmono := cost_mono (show off + 1 ≤ off + p.length by omega)
      refine .inr ⟨fun hfits => ?_, ?_⟩
      · have hle := hfits.2
        omega
      · obtain hnone | ⟨s1, din1, x, hsome, hnone⟩ := hno
        · rw [hnone]
        · rw [hsome]
          dsimp only
          rw [hnone]
    rw [hblock]
    dsimp only
    have hroom : off < (off / BSIZE + 1) * BSIZE := by
      rw [Nat.mul_comm]
      exact Nat.lt_mul_div_succ off (by decide)
    have hmod := Nat.div_add_mod off BSIZE
    generalize hn1 : min p.length ((off / BSIZE + 1) * BSIZE - off) = n1
    have hn1len : (p.take n1).length = n1 := by
      rw [length_take]
      omega
    have hn1fit : off % BSIZE + n1 ≤ BSIZE := by
      have hend : (off / BSIZE + 1) * BSIZE = BSIZE * (off / BSIZE) + BSIZE := by ring
      omega
    obtain ⟨buf, hbuf, happ, hsame⟩ := hready.write h hoff (p.take n1) (by omega) (by omega)
    rw [hbuf]
    dsimp only
    have hfree2 : (s1.wsect (slot s1.disk din1.addrs (off / BSIZE))
        (buf.storeBytes (off - off / BSIZE * BSIZE) (p.take n1))).freeblock =
        s.freeblock + (cost (off + 1) - cost off) := hfree
    have hoff2 : off + n1 = (update content i (content i ++ p.take n1) i).length := by
      rw [update_self, length_append, ← hoff, hn1len]
    have hdrop : (p.drop n1).length = p.length - n1 := length_drop
    have hfits := fits_round (s := s) (m := p.length) (by omega) hn1fit (by omega) hfree2
    have hsum : off + n1 + (p.length - n1) = off + p.length := by omega
    obtain ⟨hrest, s2, din2, hloop, hdone⟩ | ⟨hrest, hnone⟩ :=
      ih (p.length - n1) (by omega) happ hoff2 (p.drop n1) hdrop
    · rw [hsum] at hloop
      refine .inl ⟨hfits.mp hrest, s2, din2, hloop, ?_⟩
      have htrans := Appended.trans (hready.same.trans hsame) hready.fields ?_ hdone
      · rwa [take_append_drop] at htrans
      · rw [hfree2, ← hoff, hn1len, cost, cost, cost, blocks_add (by omega) hn1fit,
          blocks_add Nat.one_pos (by omega)]
    · exact .inr ⟨fun hall => hrest (hfits.mpr hall), hnone⟩

end Mkfs

end EAFITos
