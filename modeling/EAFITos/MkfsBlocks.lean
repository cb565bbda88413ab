/-
The blocks that `mkfs` hands out: every block below `freeblock` is in one place, the blocks
above are zeros, and an append stores its bytes behind those of the file.
-/
import EAFITos.Filed
import EAFITos.Mkfs

namespace EAFITos

open Function

namespace Mkfs

open Holdings

variable {disk : Disk} {heads : Nat → Nat → Nat} {fb i j k x : Nat}

/-- The blocks of a file of `n` bytes with its indirect block. -/
def cost (n : Nat) : Nat := blocks n + if NDIRECT < blocks n then 1 else 0

/-- The blocks from `nmeta` to `fb` are each in one place of the inodes, and those behind are
unused. -/
structure Handed (disk : Disk) (heads : Nat → Nat → Nat) (fb : Nat) : Prop where
  exact : Exact (refs disk heads) fun b => nmeta ≤ b ∧ b < fb
  blank : ∀ b, fb ≤ b → disk b = zeroes
  lo : nmeta ≤ fb
  hi : fb ≤ FSSIZE

namespace Handed

theorem used_succ (h : Handed disk heads fb) (b : Nat) :
    nmeta ≤ b ∧ b < fb + 1 ↔ (nmeta ≤ b ∧ b < fb) ∨ b = fb := by
  have hlo := h.lo
  omega

theorem ref_lt (h : Handed disk heads fb) {z : Nat × Place} (hz : refs disk heads z ≠ 0) :
    nmeta ≤ refs disk heads z ∧ refs disk heads z < fb :=
  h.exact.inUse z hz

end Handed

/-- Every inode has its file, in `nb` blocks. -/
structure Laid (disk : Disk) (heads : Nat → Nat → Nat) (fb : Nat) (nb : Nat → Nat)
    (content : Nat → List UInt8) : Prop where
  handed : Handed disk heads fb
  files : ∀ i, Stored disk (heads i) (nb i) (content i)

namespace Laid

variable {nb : Nat → Nat} {content : Nat → List UInt8}

section

variable (h : Laid disk heads fb nb content)
include h

theorem filed : Filed disk heads (fun b => nmeta ≤ b ∧ b < fb) nb content :=
  ⟨h.handed.exact, h.files⟩

/-- The next block is no file's so far. -/
theorem spare :
    Spare disk (fun b => nmeta ≤ b ∧ b < fb) fb where
  ne_zero := by
    have hlo := h.handed.lo
    have hmeta : 0 < nmeta := by decide
    omega
  free := fun hused => Nat.lt_irrefl fb hused.2
  blank := fun x => congrFun (h.handed.blank fb le_rfl) x

section

variable (hfit : fb < FSSIZE)
include hfit

/-- The next block has its place. -/
theorem of_filed {disk' : Disk} {heads' : Nat → Nat → Nat} {nb' : Nat → Nat}
    (hfiled : Filed disk' heads' (fun b => (nmeta ≤ b ∧ b < fb) ∨ b = fb) nb' content)
    (hblank : ∀ b, fb < b → disk' b = disk b) : Laid disk' heads' (fb + 1) nb' content := by
  refine ⟨⟨hfiled.exact.congr h.handed.used_succ, fun b hb => ?_,
    Nat.le_succ_of_le h.handed.lo, hfit⟩, hfiled.files⟩
  rw [hblank b (by omega), h.handed.blank b (by omega)]

theorem direct (hnb : nb i < NDIRECT) :
    Laid disk (update heads i (update (heads i) (nb i) fb)) (fb + 1)
      (update nb i (nb i + 1)) content :=
  h.of_filed hfit (h.filed.direct h.spare hnb) fun _ _ => rfl

theorem indirect (hzero : heads i NDIRECT = 0) :
    Laid disk (update heads i (update (heads i) NDIRECT fb)) (fb + 1) nb
      content :=
  h.of_filed hfit (h.filed.indirect h.spare hzero) fun _ _ => rfl

theorem entry (hne : heads i NDIRECT ≠ 0) (hlo : NDIRECT ≤ nb i) (hhi : nb i < MAXFILE) :
    Laid (update disk (heads i NDIRECT)
      ((disk (heads i NDIRECT)).setUint (nb i - NDIRECT) fb)) heads (fb + 1)
      (update nb i (nb i + 1)) content := by
  have hsize : FSSIZE = 2000 := rfl
  have hlt := (h.filed.indirect_used hne).2
  refine h.of_filed hfit (h.filed.entry h.spare (by omega) hne hlo hhi) fun b hb => ?_
  exact update_of_ne (by omega) _ _

end

theorem write {off : Nat} {chunk : List UInt8} (hoff : off ≤ (content i).length)
    (hlt : off / BSIZE < nb i) (hfit : off % BSIZE + chunk.length ≤ BSIZE) :
    Laid (update disk (slot disk (heads i) (off / BSIZE))
      ((disk (slot disk (heads i) (off / BSIZE))).storeBytes (off % BSIZE) chunk)) heads fb nb
      (update content i (splice (content i) chunk off)) := by
  have hfiled := h.filed.write hoff hlt hfit
  have hused := (h.filed.slot_used hlt).2
  refine ⟨⟨hfiled.exact, fun b hb => ?_, h.handed.lo, h.handed.hi⟩, hfiled.files⟩
  rw [update_of_ne (by omega)]
  exact h.handed.blank b hb

end

end Laid

end Mkfs

end EAFITos
