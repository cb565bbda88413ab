/-
The two versions of `memmove`, of `kernel/string.c` and of `user/ulib.c`: whichever way the
ranges overlap, both are the simultaneous copy.
-/
import EAFITos.ByteMemory

namespace EAFITos

open Function

/-- `while(n-- > 0) *d++ = *s++;` -/
def copyUp (m : ByteMem) (d s : Nat) : Nat → ByteMem
  | 0 => m
  | n + 1 => copyUp (update m d (m s)) (d + 1) (s + 1) n

/-- `while(n-- > 0) *--d = *--s;`, with both pointers at the end of their range. -/
def copyDown (m : ByteMem) (d s : Nat) : Nat → ByteMem
  | 0 => m
  | n + 1 => copyDown (update m (d + n) (m (s + n))) d s n

/-- `memmove` of the kernel, and of the user library, where the length is an `int`. -/
def kernelMemmove (m : ByteMem) (dst src n : Nat) : ByteMem :=
  if n = 0 then m
  else if src < dst ∧ dst < src + n then copyDown m dst src n
  else copyUp m dst src n

def userMemmove (m : ByteMem) (dst src : Nat) (n : Int) : ByteMem :=
  if dst < src then copyUp m dst src n.toNat else copyDown m dst src n.toNat

section Loops

variable {d s n : Nat}

/-- Going up is right unless the destination begins inside the source. -/
theorem copyUp_eq (m : ByteMem) (h : d ≤ s ∨ s + n ≤ d) : copyUp m d s n = m.copy d s n := by
  induction n generalizing m d s with
  | zero =>
    funext a
    rw [copyUp, ByteMem.copy, if_neg (by omega)]
  | succ n ih =>
    rw [copyUp, ih _ (by omega)]
    funext a
    simp only [ByteMem.copy]
    -- the first byte is written before the others are read, none of which it is
    by_cases hfirst : a = d
    · subst hfirst
      rw [if_neg (by omega), update_self, if_pos (by omega), Nat.sub_self, Nat.add_zero]
    · by_cases hin : d + 1 ≤ a ∧ a < d + 1 + n
      · have hsrc : s + 1 + (a - (d + 1)) = s + (a - d) := by omega
        rw [if_pos hin, if_pos (by omega), hsrc, update_of_ne (by omega)]
      · rw [if_neg hin, if_neg (by omega), update_of_ne hfirst]

/-- Going down is right unless the source begins inside the destination. -/
theorem copyDown_eq (m : ByteMem) (h : s ≤ d ∨ d + n ≤ s) : copyDown m d s n = m.copy d s n := by
  induction n generalizing m with
  | zero =>
    funext a
    rw [copyDown, ByteMem.copy, if_neg (by omega)]
  | succ n ih =>
    rw [copyDown, ih _ (by omega)]
    funext a
    simp only [ByteMem.copy]
    by_cases hlast : a = d + n
    · have hsrc : s + (a - d) = s + n := by omega
      rw [if_neg (by omega), if_pos (by omega), hsrc, hlast, update_self]
    · by_cases hin : d ≤ a ∧ a < d + n
      · rw [if_pos hin, if_pos (by omega), update_of_ne (by omega)]
      · rw [if_neg hin, if_neg (by omega), update_of_ne hlast]

end Loops

/-- Both are the simultaneous copy, for any two ranges. -/
theorem memmove_is_copy (m : ByteMem) (dst src n : Nat) :
    kernelMemmove m dst src n = m.copy dst src n ∧ userMemmove m dst src n = m.copy dst src n := by
  refine ⟨?_, ?_⟩
  · rw [kernelMemmove]
    split
    · next hzero => rw [← copyUp_eq m (by omega), hzero, copyUp]
    · split
      · exact copyDown_eq m (by omega)
      · exact copyUp_eq m (by omega)
  · rw [userMemmove, Int.toNat_natCast]
    split
    · exact copyUp_eq m (by omega)
    · exact copyDown_eq m (by omega)

end EAFITos
