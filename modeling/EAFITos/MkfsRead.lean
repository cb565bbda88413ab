/-
The image of `mkfs` read by the kernel: `readi` finds the bytes that `iappend` stored, however they
were split.
-/
import EAFITos.FsFiles
import EAFITos.MkfsMain

namespace EAFITos

open Function List Finset

namespace Mkfs

/-- The images that `ialloc` and `iappend` build, with the bytes that each inode was given. -/
inductive Built : Mkfs → (Nat → List UInt8) → Prop
  | start : Built start fun _ => []
  | ialloc {s s1 : Mkfs} {content : Nat → List UInt8} {type : BitVec 16} {i : Nat} :
      Built s content → type ≠ 0 → s.freeinode < NINODES → s.ialloc type = some (s1, i) →
      Built s1 content
  | iappend {s s1 : Mkfs} {content : Nat → List UInt8} {i : Nat} {p : List UInt8} :
      Built s content → 1 ≤ i → i < s.freeinode → 0 < p.length → p.length ≤ BSIZE →
      s.iappend i p = some s1 → Built s1 (update content i (content i ++ p))

variable {s s1 : Mkfs} {content content1 : Nat → List UInt8} {i : Nat}

theorem Built.image (h : Built s content) : Image s content := by
  induction h with
  | start => exact image_start
  | ialloc _ htype hroom hsome ih =>
    obtain ⟨s1, hialloc, himage, -⟩ := ih.ialloc hroom _ htype
    cases hialloc.symm.trans hsome
    exact himage
  | @iappend s s1 content i p _ hlo hhi _ _ hsome ih =>
    obtain ⟨-, s2, hiappend, himage, -⟩ | ⟨-, hnone⟩ := ih.iappend ⟨hlo, hhi⟩ p
    · cases hiappend.symm.trans hsome
      exact himage
    · cases hnone.symm.trans hsome

/-- An append takes the blocks that the longer file needs. -/
theorem Image.freeblock_append (h : Image s content)
    (h1 : Image s1 (update content i (content i ++ p))) (hfree : s1.freeinode = s.freeinode)
    (hi : i < s.freeinode) :
    s1.freeblock + cost (content i).length = s.freeblock + cost ((content i).length + p.length) := by
  have hmem : i ∈ Finset.range s.freeinode := Finset.mem_range.mpr hi
  have hsum : ∀ c : Nat → List UInt8, ∑ j ∈ range s.freeinode, cost (c j).length =
      cost (c i).length + ∑ j ∈ (Finset.range s.freeinode).erase i, cost (c j).length :=
    fun c => (add_sum_erase _ (fun j => cost (c j).length) hmem).symm
  have hother : ∑ j ∈ (Finset.range s.freeinode).erase i,
      cost (update content i (content i ++ p) j).length =
      ∑ j ∈ (Finset.range s.freeinode).erase i, cost (content j).length :=
    sum_congr rfl fun j hj => by rw [update_of_ne (ne_of_mem_erase hj)]
  have htotal := h.total
  have htotal1 := h1.total
  rw [hfree, hsum, update_self, length_append, hother] at htotal1
  rw [hsum] at htotal
  omega

theorem Built.appends (h : Built s content) (hlo : 1 ≤ i) (hhi : i < s.freeinode)
    (chunks : List (List UInt8)) (hchunks : ∀ c ∈ chunks, 0 < c.length ∧ c.length ≤ BSIZE)
    (hfits : Fits s (content i).length chunks.flatten.length) :
    ∃ s1, chunks.foldlM (fun s c => s.iappend i c) s = some s1 ∧
      Built s1 (update content i (content i ++ chunks.flatten)) := by
  induction chunks generalizing s content with
  | nil =>
    rw [flatten_nil, append_nil, update_eq_self]
    exact ⟨s, rfl, h⟩
  | cons c chunks ih =>
    obtain ⟨hmax, hblocks⟩ := hfits
    rw [flatten_cons, length_append, ← Nat.add_assoc] at hmax hblocks
    have hmono := cost_mono (Nat.le_add_right ((content i).length + c.length) chunks.flatten.length)
    have hmono' := cost_mono (Nat.le_add_right (content i).length c.length)
    obtain ⟨hpos, hle⟩ := hchunks c mem_cons_self
    obtain ⟨s2, hstep, himage, hfree⟩ := h.image.iappend_some ⟨hlo, hhi⟩ (p := c)
      ⟨by omega, by omega⟩
    have hfreeblock := h.image.freeblock_append himage hfree hhi
    obtain ⟨s1, hrun, hbuilt⟩ := ih (.iappend h hlo hhi hpos hle hstep) (by rw [hfree]; exact hhi)
      (fun d hd => hchunks d (mem_cons_of_mem c hd)) (by
        rw [update_self, length_append]
        exact ⟨hmax, by omega⟩)
    refine ⟨s1, ?_, ?_⟩
    · rw [foldlM_cons, hstep]
      exact hrun
    · rw [update_idem, update_self, append_assoc] at hbuilt
      rw [flatten_cons]
      exact hbuilt

/-- The kernel reads the file of an inode whose blocks hold it. -/
theorem Laid.reads {disk : Disk} {fb : Nat} {heads : Nat → Nat → Nat} {nb : Nat → Nat}
    (h : Laid disk heads fb nb content) {d : Dinode} (haddrs : heads i = d.addrs)
    (hsize : d.size = (content i).length) (logged : List Nat) :
    Fs.Reads sb ⟨disk, logged⟩ ⟨d, i⟩ (content i) := by
  have hstored := h.files i
  rw [haddrs] at hstored
  have hmax : (content i).length ≤ MAXFILE * BSIZE :=
    Nat.le_trans hstored.length (Nat.mul_le_mul_right _ hstored.nb_le)
  intro off n room hoff hn hroom
  have hread : (Fs.readi sb ⟨d, i⟩ off n room).Holds ⟨disk, logged⟩
      (fun r s' => r = (⟨d, i⟩, Fs.readResult ((content i).take d.size) off n room) ∧
        s' = ⟨disk, logged⟩) fun _ => False :=
    Fs.readi_spec sb room hstored (Nat.le_of_eq hsize) hoff hn
  obtain ⟨r, s', hrun, hr, hs'⟩ := hread.exists_ok
  rw [hsize, take_length, Fs.readResult_eq hmax hroom] at hr
  rw [hrun, hr, hs']

/-- **`mkfs` and the kernel agree.**  Whatever the chunks are in which a file that fits is appended,
the appends succeed, and `readi` on its inode returns the bytes of the file and changes nothing; also
in the image at the end. -/
theorem kernel_reads_appends (h : Built s content) (hlo : 1 ≤ i) (hhi : i < s.freeinode) :
    (∀ chunks : List (List UInt8), (∀ c ∈ chunks, 0 < c.length ∧ c.length ≤ BSIZE) →
      Fits s (content i).length chunks.flatten.length →
      ∃ s1, chunks.foldlM (fun s c => s.iappend i c) s = some s1 ∧
        Built s1 (update content i (content i ++ chunks.flatten))) ∧
    Fs.Reads sb ⟨s.disk, []⟩ ⟨s.disk.inode sb i, i⟩ (content i) ∧
    (i ≠ ROOTINO →
      Fs.Reads sb ⟨s.finished.disk, []⟩ ⟨s.finished.disk.inode sb i, i⟩ (content i)) := by
  have himage := h.image
  have hheads : s.heads i = (s.disk.inode sb i).addrs := if_pos ⟨hlo, hhi⟩
  refine ⟨h.appends hlo hhi, himage.laid.reads hheads (himage.size i hlo hhi) [], fun hroot => ?_⟩
  have hnum : NINODES = 200 := rfl
  have hmax := himage.inodes.2
  have hrootino : ROOTINO = 1 := rfl
  have hinode := himage.inode_finished (by omega) (show i < 208 by omega)
  rw [if_neg hroot] at hinode
  rw [hinode]
  exact himage.laid_finished.reads hheads (himage.size i hlo hhi) []

/-- The first inode is a file of two bytes. -/
theorem built_two : ∃ s content, Built s content ∧ content 1 = [7, 8] ∧ s.freeinode = 2 := by
  obtain ⟨s1, hialloc, -, hfree⟩ := image_start.ialloc (by decide) T_FILE (by decide)
  have hbuilt : Built s1 fun _ => [] := .ialloc .start (by decide) (by decide) hialloc
  have hfree1 : s1.freeinode = 2 := hfree
  have hfits : Fits s1 0 2 := by
    have htotal := hbuilt.image.total
    have hzero : ∑ i ∈ range s1.freeinode, cost ([] : List UInt8).length = 0 :=
      sum_eq_zero fun _ _ => rfl
    have hcost : cost 2 = 1 := by decide
    have hmeta : nmeta = 47 := by decide
    have hsize : FSSIZE = 2000 := rfl
    rw [hzero] at htotal
    refine ⟨by decide, ?_⟩
    rw [Nat.zero_add, hcost]
    omega
  obtain ⟨s2, hrun, hbuilt2⟩ := hbuilt.appends (i := 1) le_rfl (by omega) [[7, 8]] (by decide) hfits
  have hfree2 := (hbuilt.image.appends (i := 1) ⟨Nat.le_refl 1, by omega⟩ [[7, 8]] hrun).2
  exact ⟨s2, _, hbuilt2, rfl, hfree2.trans hfree1⟩

theorem kernel_reads_appends_two : ∃ s : Mkfs,
    Fs.readi sb ⟨s.disk.inode sb 1, 1⟩ 1 10 10 ⟨s.disk, []⟩ =
      .ok (⟨s.disk.inode sb 1, 1⟩, 1, [8]) ⟨s.disk, []⟩ := by
  obtain ⟨s, content, hbuilt, hcontent, hfree⟩ := built_two
  obtain ⟨-, hreads, -⟩ := kernel_reads_appends hbuilt le_rfl (by omega)
  rw [hcontent] at hreads
  exact ⟨s, hreads 1 10 10 (by decide) (by decide) le_rfl⟩

/-- The end of the request is computed in 32 bits: a request that wraps around returns nothing. -/
theorem kernel_read_wraps : ∃ s content, Built s content ∧ 1 < s.freeinode ∧
    ((content 1).drop 1).take (2 ^ 32 - 1) = [8] ∧
    Fs.readi sb ⟨s.disk.inode sb 1, 1⟩ 1 (2 ^ 32 - 1) (2 ^ 32) ⟨s.disk, []⟩ =
      .ok (⟨s.disk.inode sb 1, 1⟩, 0, []) ⟨s.disk, []⟩ := by
  obtain ⟨s, content, hbuilt, hcontent, hfree⟩ := built_two
  have hheads : s.heads 1 = (s.disk.inode sb 1).addrs := if_pos ⟨Nat.le_refl 1, by omega⟩
  have hreads := hbuilt.image.laid.reads hheads (hbuilt.image.size 1 le_rfl (by omega)) []
  refine ⟨s, content, hbuilt, by omega, by rw [hcontent]; rfl, ?_⟩
  rw [hcontent] at hreads
  exact hreads 1 (2 ^ 32 - 1) (2 ^ 32) (by decide) (by decide) (by decide)

end Mkfs

end EAFITos
