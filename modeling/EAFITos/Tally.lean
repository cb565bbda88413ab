/-
Sums over a finite set of places when the contents of one place change, and the
pigeonhole step that a small sum leaves a place empty.
-/
import Mathlib.Algebra.BigOperators.Group.Finset.Basic
import Mathlib.Algebra.Order.BigOperators.Group.Finset

namespace Tally

variable {ι : Type*} {M : Type*} [DecidableEq ι]

theorem sum_change [AddCommMonoid M] {places : Finset ι} {f g : ι → M} {z : ι} (hz : z ∈ places)
    (hother : ∀ x ∈ places, x ≠ z → f x = g x) :
    ∑ x ∈ places, f x + g z = ∑ x ∈ places, g x + f z := by
  have hrest : ∑ x ∈ places.erase z, f x = ∑ x ∈ places.erase z, g x := by
    refine Finset.sum_congr rfl fun x hx => ?_
    obtain ⟨hne, hmem⟩ := Finset.mem_erase.mp hx
    exact hother x hmem hne
  rw [← Finset.add_sum_erase _ _ hz, ← Finset.add_sum_erase _ _ hz, hrest, add_right_comm,
    add_comm (f z) (g z), add_right_comm]

omit [DecidableEq ι] in
/-- A sum of counts below the number of places leaves some place at zero. -/
theorem exists_eq_zero_of_sum_lt {places : Finset ι} {f : ι → Nat}
    (h : ∑ x ∈ places, f x < places.card) : ∃ x ∈ places, f x = 0 := by
  by_contra hnone
  have hpos : ∀ x ∈ places, 1 ≤ f x := fun x hx =>
    Nat.one_le_iff_ne_zero.mpr fun hzero => hnone ⟨x, hx, hzero⟩
  have hcard : places.card ≤ ∑ x ∈ places, f x := by
    simpa using Finset.card_nsmul_le_sum places f 1 hpos
  exact absurd h (Nat.not_lt.mpr hcard)

end Tally
