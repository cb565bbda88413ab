/-
The constants and address arithmetic of `kernel/riscv.h` and
`kernel/memlayout.h`: pages, page-table entries, and the layout of the user
address space.
-/
import Mathlib.Data.Nat.Bitwise
import Mathlib.Tactic.IntervalCases

namespace EAFITos

variable {perm pa : Nat}

def PGSIZE : Nat := 4096

/-- `uint64` arithmetic wraps at this bound. -/
def U64 : Nat := 2 ^ 64

def PGROUNDUP (sz : Nat) : Nat := (sz + 4095) % U64 / 4096 * 4096

def PGROUNDDOWN (a : Nat) : Nat := a / 4096 * 4096

def PTE_V : Nat := 1
def PTE_R : Nat := 2
def PTE_W : Nat := 4
def PTE_X : Nat := 8
def PTE_U : Nat := 16

def PA2PTE (pa : Nat) : Nat := pa / 4096 * 1024

def PTE2PA (pte : Nat) : Nat := pte / 1024 * 4096

def PTE_FLAGS (pte : Nat) : Nat := pte % 1024

/-- The 9-bit page-table index of `va` at `level`. -/
def PX (level va : Nat) : Nat := va / 2 ^ (12 + 9 * level) % 512

/-- One beyond the highest possible virtual address. -/
def MAXVA : Nat := 2 ^ 38

def TRAMPOLINE : Nat := MAXVA - PGSIZE

def TRAPFRAME : Nat := TRAMPOLINE - PGSIZE

def KERNBASE : Nat := 0x80000000

def PHYSTOP : Nat := KERNBASE + 128 * 1024 * 1024

/-- A flag bit of a page-table entry, tested as `pte & flag`. -/
def hasFlag (pte flag : Nat) : Bool := pte &&& flag != 0

def USERSTACK : Nat := 1
def MAXARG : Nat := 32

@[simp] theorem hasFlag_V (pte : Nat) : hasFlag pte PTE_V = decide (pte % 2 = 1) := by
  simp only [hasFlag, PTE_V, Nat.and_one_is_mod]
  have h : pte % 2 = 0 ∨ pte % 2 = 1 := by omega
  rcases h with h | h <;> simp [h]

/-- A flag bit is read from the low ten bits alone. -/
theorem hasFlag_flags (pte flag : Nat) (hflag : flag < 1024) :
    hasFlag (PTE_FLAGS pte) flag = hasFlag pte flag := by
  have hand : PTE_FLAGS pte &&& flag = pte &&& flag := by
    apply Nat.eq_of_testBit_eq
    intro i
    have hmod : PTE_FLAGS pte = pte % 2 ^ 10 := rfl
    rw [Nat.testBit_and, Nat.testBit_and, hmod, Nat.testBit_mod_two_pow]
    by_cases hi : i < 10
    · simp [hi]
    · have hle : 2 ^ 10 ≤ 2 ^ i := Nat.pow_le_pow_right (by omega) (by omega)
      have hzero : flag.testBit i = false :=
        Nat.testBit_lt_two_pow (Nat.lt_of_lt_of_le hflag hle)
      simp [hzero]
  rw [hasFlag, hasFlag, hand]

/-- The entry `mappages` writes: `PA2PTE(pa) | perm | PTE_V`. -/
def mkPte (pa perm : Nat) : Nat := PA2PTE pa ||| perm ||| PTE_V

theorem or_one_lt (hperm : perm < 1024) : perm ||| PTE_V < 1024 :=
  Nat.or_lt_two_pow (n := 10) hperm (by decide)

theorem mkPte_eq (hperm : perm < 1024) :
    mkPte pa perm = pa / 4096 * 1024 + (perm ||| PTE_V) := by
  have hor := Nat.two_pow_add_eq_or_of_lt (i := 10) (or_one_lt hperm) (pa / 4096)
  rw [mkPte, PA2PTE, Nat.or_assoc, Nat.mul_comm]
  exact hor.symm

theorem PTE2PA_mkPte (hpa : pa % 4096 = 0) (hperm : perm < 1024) :
    PTE2PA (mkPte pa perm) = pa := by
  have hlow := or_one_lt hperm
  rw [mkPte_eq hperm, PTE2PA]
  omega

theorem PTE2PA_mkPte_le (hperm : perm < 1024) : PTE2PA (mkPte pa perm) ≤ pa := by
  rw [mkPte_eq hperm, PTE2PA]
  have hlt := or_one_lt hperm
  omega

theorem PTE_FLAGS_mkPte (hperm : perm < 1024) :
    PTE_FLAGS (mkPte pa perm) = perm ||| PTE_V := by
  have hlow := or_one_lt hperm
  rw [mkPte_eq hperm, PTE_FLAGS]
  omega

theorem mkPte_mod_two : mkPte pa perm % 2 = 1 := by
  rw [mkPte, PTE_V, Nat.or_mod_two_eq_one]
  exact Or.inr rfl

theorem mkPte_lt (hpa : pa < 2 ^ 64) (hperm : perm < 1024) :
    mkPte pa perm < 256 ^ 8 := by
  have hlow := or_one_lt hperm
  rw [mkPte_eq hperm]
  omega

theorem hasFlag_or (a b flag : Nat) :
    hasFlag (a ||| b) flag = (hasFlag a flag || hasFlag b flag) := by
  have hdist : (a ||| b) &&& flag = (a &&& flag) ||| (b &&& flag) :=
    Nat.and_or_distrib_right ..
  rw [hasFlag, hdist, hasFlag, hasFlag, Bool.eq_iff_iff]
  simp only [bne_iff_ne, ne_eq, Nat.or_eq_zero_iff, Bool.or_eq_true]
  tauto

theorem hasFlag_mkPte {flag : Nat} (hperm : perm < 1024) (hflag : flag < 1024) :
    hasFlag (mkPte pa perm) flag = (hasFlag perm flag || hasFlag PTE_V flag) := by
  rw [← hasFlag_flags _ _ hflag, PTE_FLAGS_mkPte hperm, hasFlag_or]

theorem PTE2PA_mod (pte : Nat) : PTE2PA pte % 4096 = 0 := by
  rw [PTE2PA]
  omega

theorem and_PTE_U (pte : Nat) : pte &&& PTE_U = pte / 16 % 2 * 16 := by
  have h := Nat.and_two_pow pte 4
  rw [Nat.testBit_eq_decide_div_mod_eq] at h
  have hbit : (decide (pte / 2 ^ 4 % 2 = 1)).toNat = pte / 16 % 2 := by
    have hcases : pte / 16 % 2 = 0 ∨ pte / 16 % 2 = 1 := by omega
    rcases hcases with hzero | hone
    · rw [decide_eq_false (by omega), hzero]
      rfl
    · rw [decide_eq_true (by omega), hone]
      rfl
  rw [hbit] at h
  exact h

theorem clear_PTE_U (pte : Nat) :
    PTE2PA (pte - (pte &&& PTE_U)) = PTE2PA pte ∧
      PTE_FLAGS (pte - (pte &&& PTE_U)) = PTE_FLAGS pte - (PTE_FLAGS pte &&& PTE_U) ∧
      (pte - (pte &&& PTE_U)) % 16 = pte % 16 := by
  rw [and_PTE_U, and_PTE_U, PTE2PA, PTE2PA, PTE_FLAGS, PTE_FLAGS]
  omega

theorem hasFlag_rwx_congr {pte pte' : Nat} (h : pte' % 16 = pte % 16) :
    hasFlag pte' (PTE_R ||| PTE_W ||| PTE_X) = hasFlag pte (PTE_R ||| PTE_W ||| PTE_X) := by
  have hlow : ∀ x : Nat, x &&& (PTE_R ||| PTE_W ||| PTE_X) =
      x % 16 &&& (PTE_R ||| PTE_W ||| PTE_X) := by
    intro x
    have hmod := Nat.and_mod_two_pow (a := x) (b := 14) (n := 4)
    have hlt : x &&& 14 < 16 := Nat.lt_of_le_of_lt Nat.and_le_right (by decide)
    rw [Nat.mod_eq_of_lt hlt] at hmod
    exact hmod
  rw [hasFlag, hasFlag, hlow pte', hlow pte, h]

theorem PX_lt (level va : Nat) : PX level va < 512 := Nat.mod_lt _ (by decide)

theorem PGROUNDDOWN_mod (a : Nat) : PGROUNDDOWN a % 4096 = 0 := by
  rw [PGROUNDDOWN]
  omega

end EAFITos
