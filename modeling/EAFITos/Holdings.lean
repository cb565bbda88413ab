/-
Numbered resources and the places that hold them: a resource is in use exactly when some
place holds it, and then only one place does.  Zero in a place means that it is empty.
-/
import Mathlib.Logic.Function.Basic

namespace Holdings

open Function

variable {ι : Type*} {ref ref' : ι → Nat} {used used' : Nat → Prop}

/-- Every resource in use is held in one place, and every place holds one in use. -/
structure Exact (ref : ι → Nat) (used : Nat → Prop) : Prop where
  inUse : ∀ x, ref x ≠ 0 → used (ref x)
  held : ∀ b, used b → b ≠ 0 ∧ ∃ x, ref x = b
  unique : ∀ x y, ref x ≠ 0 → ref x = ref y → x = y

theorem Exact.congr (h : Exact ref used) (hused : ∀ b, used' b ↔ used b) : Exact ref used' where
  inUse := fun x hx => (hused _).mpr (h.inUse x hx)
  held := fun b hb => h.held b ((hused b).mp hb)
  unique := h.unique

/-- No other place holds the resource. -/
theorem Exact.ne (h : Exact ref used) {x y : ι} (hx : ref x ≠ 0) (hne : y ≠ x) :
    ref y ≠ ref x :=
  fun heq => hne (h.unique x y hx heq.symm).symm

variable [DecidableEq ι]

/-- A resource that was not in use goes to an empty place. -/
theorem Exact.insert (h : Exact ref used) {z : ι} {b : Nat} (hz : ref z = 0) (hb : b ≠ 0)
    (hfree : ¬ used b) : Exact (update ref z b) fun c => used c ∨ c = b := by
  have hother : ∀ x, ref x ≠ 0 → ref x ≠ b := by
    rintro x hx rfl
    exact hfree (h.inUse x hx)
  refine ⟨fun x hx => ?_, fun c hc => ?_, fun x y hx heq => ?_⟩
  · by_cases hxz : x = z
    · rw [hxz, update_self]
      exact .inr rfl
    · rw [update_of_ne hxz] at hx ⊢
      exact .inl (h.inUse x hx)
  · obtain hc | rfl := hc
    · obtain ⟨hne, x, rfl⟩ := h.held c hc
      refine ⟨hne, x, update_of_ne ?_ _ _⟩
      rintro rfl
      exact hne hz
    · exact ⟨hb, z, update_self _ _ _⟩
  · by_cases hxz : x = z
    · by_contra hxy
      have hyz : y ≠ z := fun hyz => hxy (hxz.trans hyz.symm)
      rw [hxz, update_self, update_of_ne hyz] at heq
      exact hother y (heq ▸ hb) heq.symm
    · rw [update_of_ne hxz] at hx heq
      by_cases hyz : y = z
      · rw [hyz, update_self] at heq
        exact absurd heq (hother x hx)
      · rw [update_of_ne hyz] at heq
        exact h.unique x y hx heq

end Holdings
