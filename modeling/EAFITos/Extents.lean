/-
Lists of extents of an address space.  How often a list covers each address says at once that its
extents are disjoint and what they cover together.
-/
import Mathlib.Algebra.Order.BigOperators.Group.List
import Mathlib.Algebra.Order.Ring.Nat
import Mathlib.Data.List.Pairwise
import Mathlib.Data.List.Perm.Basic

namespace Extents

open List

/-- `len` addresses from `start` on. -/
structure Extent where
  start : Nat
  len : Nat
  deriving DecidableEq, Repr

namespace Extent

/-- The end of the extent: the first address behind it. -/
def stop (e : Extent) : Nat := e.start + e.len

def Has (e : Extent) (x : Nat) : Prop := e.start ≤ x ∧ x < e.stop

instance (e : Extent) (x : Nat) : Decidable (e.Has x) := inferInstanceAs (Decidable (_ ∧ _))

/-- One of the extents ends before the other begins. -/
def Apart (e f : Extent) : Prop := e.stop ≤ f.start ∨ f.stop ≤ e.start

end Extent

/-- How many of the extents have the address. -/
def cover (es : List Extent) (x : Nat) : Nat := es.countP fun e => e.Has x

/-- The lengths together. -/
def total (es : List Extent) : Nat := (es.map Extent.len).sum

variable {e f : Extent} {es es' : List Extent} {x m n start : Nat}

theorem cover_cons : cover (e :: es) x = cover es x + if e.Has x then 1 else 0 := by
  rw [cover, countP_cons]
  simp only [decide_eq_true_eq]
  rfl

theorem cover_append : cover (es ++ es') x = cover es x + cover es' x := countP_append

theorem cover_perm (h : es.Perm es') : cover es x = cover es' x := h.countP_eq _

theorem total_cons : total (e :: es) = e.len + total es := sum_cons

theorem total_append : total (es ++ es') = total es + total es' := by
  rw [total, map_append, sum_append]
  rfl

theorem total_perm (h : es.Perm es') : total es = total es' := (h.map Extent.len).sum_eq

/-- An extent may be cut in two. -/
theorem cover_cut : cover (⟨start, m⟩ :: ⟨start + m, n⟩ :: es) x =
    cover (⟨start, m + n⟩ :: es) x := by
  have hfirst : (Extent.mk start m).Has x ↔ start ≤ x ∧ x < start + m := Iff.rfl
  have hsecond : (Extent.mk (start + m) n).Has x ↔ start + m ≤ x ∧ x < start + m + n := Iff.rfl
  have hwhole : (Extent.mk start (m + n)).Has x ↔ start ≤ x ∧ x < start + (m + n) := Iff.rfl
  have hsplit : (Extent.mk start (m + n)).Has x ↔
      (Extent.mk start m).Has x ∨ (Extent.mk (start + m) n).Has x := by
    rw [hfirst, hsecond, hwhole]
    omega
  have honly : ¬ ((Extent.mk start m).Has x ∧ (Extent.mk (start + m) n).Has x) := by
    rw [hfirst, hsecond]
    omega
  rw [cover_cons, cover_cons, cover_cons]
  by_cases h1 : (Extent.mk start m).Has x
  · rw [if_pos h1, if_neg fun h2 => honly ⟨h1, h2⟩, if_pos (hsplit.mpr (.inl h1))]
  · by_cases h2 : (Extent.mk (start + m) n).Has x
    · rw [if_neg h1, if_pos h2, if_pos (hsplit.mpr (.inr h2))]
    · rw [if_neg h1, if_neg h2, if_neg fun h => (hsplit.mp h).elim h1 h2]

theorem total_cut : total (⟨start, m⟩ :: ⟨start + m, n⟩ :: es) = total (⟨start, m + n⟩ :: es) := by
  simp only [total_cons]
  omega

/-- Lists that cover the same addresses equally often, with the same length. -/
structure Same (es es' : List Extent) : Prop where
  cover : ∀ x, cover es x = cover es' x
  total : total es = total es'

theorem Same.refl (es : List Extent) : Same es es := ⟨fun _ => rfl, rfl⟩

theorem Same.symm (h : Same es es') : Same es' es := ⟨fun x => (h.cover x).symm, h.total.symm⟩

theorem Same.trans {es'' : List Extent} (h : Same es es') (h' : Same es' es'') : Same es es'' :=
  ⟨fun x => (h.cover x).trans (h'.cover x), h.total.trans h'.total⟩

theorem Same.of_perm (h : es.Perm es') : Same es es' := ⟨fun _ => cover_perm h, total_perm h⟩

theorem Same.cons (e : Extent) (h : Same es es') : Same (e :: es) (e :: es') :=
  ⟨fun x => by rw [cover_cons, cover_cons, h.cover], by rw [total_cons, total_cons, h.total]⟩

theorem Same.append_left (es'' : List Extent) (h : Same es es') :
    Same (es'' ++ es) (es'' ++ es') :=
  ⟨fun x => by rw [cover_append, cover_append, h.cover], by
    rw [total_append, total_append, h.total]⟩

theorem Same.append_right (es'' : List Extent) (h : Same es es') :
    Same (es ++ es'') (es' ++ es'') :=
  ⟨fun x => by rw [cover_append, cover_append, h.cover], by
    rw [total_append, total_append, h.total]⟩

/-- Two extents, one behind the other, are one. -/
theorem Same.join (e f : Extent) (es : List Extent) (h : e.stop = f.start) :
    Same (e :: f :: es) (⟨e.start, e.len + f.len⟩ :: es) := by
  obtain ⟨start, len⟩ := e
  obtain ⟨_, len'⟩ := f
  obtain rfl := h
  exact ⟨fun _ => cover_cut, total_cut⟩

theorem one_le_cover (he : e ∈ es) (hx : e.Has x) : 1 ≤ cover es x :=
  countP_pos_iff.mpr ⟨e, he, decide_eq_true hx⟩

theorem exists_of_cover (h : 0 < cover es x) : ∃ e ∈ es, e.Has x := by
  obtain ⟨e, he, hx⟩ := countP_pos_iff.mp h
  exact ⟨e, he, of_decide_eq_true hx⟩

theorem pairwise_apart (honce : ∀ x, cover es x ≤ 1) (hpos : ∀ e ∈ es, 0 < e.len) :
    es.Pairwise Extent.Apart := by
  induction es with
  | nil => exact .nil
  | cons e es ih =>
    refine .cons (fun f hf => ?_) (ih (fun x => ?_) fun f hf => hpos f (mem_cons_of_mem e hf))
    · by_contra hnot
      have he := hpos e mem_cons_self
      have hflen := hpos f (mem_cons_of_mem e hf)
      simp only [Extent.Apart, Extent.stop] at hnot
      -- the later of the two starts lies in both
      have hboth : e.Has (max e.start f.start) ∧ f.Has (max e.start f.start) := by
        simp only [Extent.Has, Extent.stop]
        omega
      have hone := one_le_cover hf hboth.2
      have htwo := honce (max e.start f.start)
      rw [cover_cons, if_pos hboth.1] at htwo
      omega
    · have hle := honce x
      rw [cover_cons] at hle
      omega

instance : Std.Symm Extent.Apart := ⟨fun _ _ h => Or.symm h⟩

/-- Two different members of such a list are apart. -/
theorem apart_of_ne (honce : ∀ x, cover es x ≤ 1) (hpos : ∀ e ∈ es, 0 < e.len) (he : e ∈ es)
    (hf : f ∈ es) (hne : e ≠ f) : e.Apart f :=
  (pairwise_apart honce hpos).forall he hf hne

theorem len_le_total (he : e ∈ es) : e.len ≤ total es :=
  single_le_sum (fun _ _ => Nat.zero_le _) _ (mem_map_of_mem he)

end Extents
