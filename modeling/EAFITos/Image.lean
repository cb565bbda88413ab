/-
The image of a program: an address space as `exec` builds it, dense from 0 to its
size, and what it means that a page table in memory shows an image.
-/
import EAFITos.UserCopy
import EAFITos.Exec
import EAFITos.ProcTable

namespace EAFITos

/-- A dense address space: every page below `sz` has flags, every byte a value. -/
structure Image where
  sz : Nat
  flags : Nat → Nat
  bytes : Nat → UInt8

namespace Image

def empty : Image := ⟨0, fun _ => 0, fun _ => 0⟩

/-- Zeroed pages up to `newsz`. -/
def grow (img : Image) (newsz perm : Nat) : Image where
  sz := max newsz img.sz
  flags := fun vpn => if vpn < pgup img.sz then img.flags vpn else perm ||| PTE_V
  bytes := fun a => if a / 4096 < pgup img.sz then img.bytes a else 0

/-- The bytes of a list at `a`. -/
def store (img : Image) (a : Nat) (bytes : List UInt8) : Image where
  sz := img.sz
  flags := img.flags
  bytes := fun x =>
    if a ≤ x ∧ x < a + bytes.length then bytes.getD (x - a) 0 else img.bytes x

/-- Make one page inaccessible to the user. -/
def guard (img : Image) (vpn : Nat) : Image where
  sz := img.sz
  flags := fun v => if v = vpn then img.flags v - (img.flags v &&& PTE_U) else img.flags v
  bytes := img.bytes

end Image

/-- User memory: everything below the trapframe. -/
def userVpn (vpn : Nat) : Bool := decide (vpn < TFVPN)

theorem userVpn_iff {vpn : Nat} : userVpn vpn = true ↔ vpn < TFVPN := by
  rw [userVpn, decide_eq_true_iff]

/-- The page table at `root` maps exactly the image. -/
structure Shows (s : Phys) (root : Nat) (img : Image) : Prop where
  mapped : ∀ vpn, vpn < pgup img.sz →
    ∃ pte, leafPte s.mem root vpn = some pte ∧ PTE_FLAGS pte = img.flags vpn
  empty : ∀ vpn, pgup img.sz ≤ vpn → vpn < TFVPN → leafPte s.mem root vpn = none
  bytes : ∀ a, a / 4096 < pgup img.sz → byteAt s.mem root a = img.bytes a
  fits : img.sz ≤ TRAPFRAME

section Steps

variable {s s' : Phys} {root : Nat} {held : List Nat} {img : Image}

theorem Shows.pages_le (h : Shows s root img) : pgup img.sz ≤ TFVPN :=
  pgup_le h.fits

theorem shows_fresh {trapframe : Nat} {keep : Nat → Bool} {s0 : Phys}
    (h : FreshTable s s0 root trapframe keep held) : Shows s root Image.empty where
  mapped := fun vpn hlt => absurd hlt (Nat.not_lt_zero vpn)
  empty := fun vpn _ hlt => h.empty vpn hlt
  bytes := fun _ hlt => absurd hlt (Nat.not_lt_zero _)
  fits := Nat.zero_le _

/-- The image after `uvmalloc` has mapped zeroed pages. -/
theorem Shows.grow (h : Shows s root img) {newsz perm : Nat}
    (hpop : Populated s' s root userVpn (pgup img.sz) (pgup newsz - pgup img.sz) perm
      zeroPage) (hperm : perm < 1024) (hfits : max newsz img.sz ≤ TRAPFRAME) :
    Shows s' root (img.grow newsz perm) := by
  have htf : TFVPN = 2 ^ 26 - 2 := rfl
  have hle := h.pages_le
  have hmax : pgup (max newsz img.sz) = max (pgup newsz) (pgup img.sz) := by
    rcases Nat.le_total newsz img.sz with hle | hle
    · rw [Nat.max_eq_right hle, Nat.max_eq_right (pgup_mono hle)]
    · rw [Nat.max_eq_left hle, Nat.max_eq_left (pgup_mono hle)]
  have hbound : pgup (max newsz img.sz) ≤ TFVPN := pgup_le hfits
  have hold : ∀ vpn, vpn < 512 ^ 3 → ¬ (pgup img.sz ≤ vpn ∧ vpn < pgup newsz) →
      view s'.mem root userVpn vpn = view s.mem root userVpn vpn :=
    fun vpn hvpn hout => (hpop vpn hvpn).2 (by omega)
  have hnew : ∀ vpn, pgup img.sz ≤ vpn → vpn < pgup newsz →
      ∃ pa, view s'.mem root userVpn vpn = some ⟨mkPte pa perm, some zeroPage⟩ :=
    fun vpn hlo hhi => (hpop vpn (by omega)).1 (by omega)
  refine ⟨?_, ?_, ?_, hfits⟩
  · intro vpn hlt
    change vpn < pgup (max newsz img.sz) at hlt
    change ∃ pte, leafPte s'.mem root vpn = some pte ∧ PTE_FLAGS pte =
      if vpn < pgup img.sz then img.flags vpn else perm ||| PTE_V
    by_cases hin : vpn < pgup img.sz
    · obtain ⟨pte, hpte, hflags⟩ := h.mapped vpn hin
      refine ⟨pte, ?_, by rw [if_pos hin, hflags]⟩
      rw [leafPte_eq_view _ _ userVpn, hold vpn (by omega) (by omega), ← leafPte_eq_view,
        hpte]
    · obtain ⟨pa, hview⟩ := hnew vpn (by omega) (by omega)
      refine ⟨mkPte pa perm, ?_, by rw [if_neg hin, PTE_FLAGS_mkPte hperm]⟩
      rw [leafPte_eq_view _ _ userVpn, hview, Option.map_some]
  · intro vpn hlo hhi
    change pgup (max newsz img.sz) ≤ vpn at hlo
    rw [leafPte_eq_view _ _ userVpn, hold vpn (by omega) (by omega), ← leafPte_eq_view]
    exact h.empty vpn (by omega) hhi
  · intro a hlt
    change a / 4096 < pgup (max newsz img.sz) at hlt
    change byteAt s'.mem root a = if a / 4096 < pgup img.sz then img.bytes a else 0
    by_cases hin : a / 4096 < pgup img.sz
    · rw [if_pos hin, ← h.bytes a hin]
      exact byteAt_congr (userVpn_iff.2 (by omega)) (hold _ (by omega) (by omega))
    · obtain ⟨pa, hview⟩ := hnew (a / 4096) (by omega) (by omega)
      rw [if_neg hin, byteAt_of_view hview]
      rfl

/-- What a table shows is a matter of its mappings. -/
theorem Shows.congr (h : Shows s root img) (hview : SameView s' s root userVpn) :
    Shows s' root img := by
  have htf : TFVPN = 2 ^ 26 - 2 := rfl
  have hle := h.pages_le
  refine ⟨?_, ?_, ?_, h.fits⟩
  · intro vpn hlt
    rw [hview.leaves vpn (by omega)]
    exact h.mapped vpn hlt
  · intro vpn hlo hlt
    rw [hview.leaves vpn (by omega)]
    exact h.empty vpn hlo hlt
  · intro a hlt
    rw [byteAt_congr (userVpn_iff.2 (by omega)) (hview _ (by omega))]
    exact h.bytes a hlt

/-- The image after bytes have been written. -/
theorem Shows.store (h : Shows s root img) {a : Nat} {bytes : List UInt8}
    (hleaves : SameLeaves s' s root) (hwritten : Written s' s root userVpn a bytes) :
    Shows s' root (img.store a bytes) := by
  have htf : TFVPN = 2 ^ 26 - 2 := rfl
  have hle := h.pages_le
  refine ⟨?_, ?_, ?_, h.fits⟩
  · intro vpn hlt
    rw [hleaves vpn (by have : vpn < pgup img.sz := hlt; omega)]
    exact h.mapped vpn hlt
  · intro vpn hlo hhi
    rw [hleaves vpn (by omega)]
    exact h.empty vpn hlo hhi
  · intro x hlt
    have hlt' : x / 4096 < pgup img.sz := hlt
    rw [hwritten x (userVpn_iff.2 (by omega)), h.bytes x hlt']
    rfl

end Steps

end EAFITos
