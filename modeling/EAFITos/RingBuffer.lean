/-
Ring buffers with free-running counters.  The two counters wrap at a modulus that
the capacity divides, and are reduced to a slot only when the buffer is accessed.
-/
import Mathlib.Data.Nat.ModEq
import Mathlib.Logic.Function.Basic

universe u

/-- A ring: `head` counts what was taken out and `tail` what was put in. -/
structure RingBuffer (α : Type u) where
  data : Nat → α
  head : Nat
  tail : Nat

namespace RingBuffer

open Function List

variable {α : Type u}

section Operations

variable (cap modulus : Nat)

/-- The number of elements, as the difference of the two counters. -/
def count (r : RingBuffer α) : Nat := (r.tail + modulus - r.head) % modulus

/-- The elements, oldest first. -/
def contents (r : RingBuffer α) : List α :=
  (range (r.count modulus)).map fun t => r.data ((r.head + t) % cap)

def push (r : RingBuffer α) (x : α) : RingBuffer α :=
  { r with
    data := update r.data (r.tail % cap) x
    tail := (r.tail + 1) % modulus }

def front (r : RingBuffer α) : α := r.data (r.head % cap)

def pop (r : RingBuffer α) : RingBuffer α := { r with head := (r.head + 1) % modulus }

/-- The element put in last is taken back. -/
def unpush (r : RingBuffer α) : RingBuffer α :=
  { r with tail := (r.tail + modulus - 1) % modulus }

/-- The counters are reduced and never further apart than the capacity. -/
structure Ok (r : RingBuffer α) : Prop where
  head : r.head < modulus
  tail : ∃ c, c ≤ cap ∧ r.tail = (r.head + c) % modulus

end Operations

variable {cap modulus : Nat} {r : RingBuffer α}

theorem push_of_slot {x : α} (h : r.data (r.tail % cap) = x) :
    r.push cap modulus x = { r with tail := (r.tail + 1) % modulus } := by
  rw [push, ← h, update_eq_self]

theorem unpush_head (r : RingBuffer α) (modulus : Nat) : (r.unpush modulus).head = r.head := rfl

theorem count_of_tail {c : Nat} (hhead : r.head < modulus) (hc : c < modulus)
    (htail : r.tail = (r.head + c) % modulus) : r.count modulus = c := by
  rw [count, htail]
  by_cases hlt : r.head + c < modulus
  · have hsum : r.head + c + modulus - r.head = c + modulus := by omega
    rw [Nat.mod_eq_of_lt hlt, hsum, Nat.add_mod_right, Nat.mod_eq_of_lt hc]
  · have hsum : r.head + c - modulus + modulus - r.head = c := by omega
    have hwrap : (r.head + c) % modulus = r.head + c - modulus := by
      rw [Nat.mod_eq_sub_mod (by omega), Nat.mod_eq_of_lt (by omega)]
    rw [hwrap, hsum, Nat.mod_eq_of_lt hc]

theorem ok_empty (data : Nat → α) (h : 0 < modulus) : (mk data 0 0).Ok cap modulus :=
  ⟨h, 0, Nat.zero_le _, (Nat.zero_mod _).symm⟩

theorem contents_empty (data : Nat → α) : (mk data 0 0).contents cap modulus = [] := by
  have hcount : (mk data 0 0).count modulus = 0 := by
    rw [count, Nat.zero_add, Nat.sub_zero, Nat.mod_self]
  rw [contents, hcount]
  rfl

section Bounds

variable (hcap : cap < modulus)
include hcap

section

variable (h : r.Ok cap modulus)
include h

theorem Ok.tail_eq : r.count modulus ≤ cap ∧ r.tail = (r.head + r.count modulus) % modulus := by
  obtain ⟨c, hc, htail⟩ := h.tail
  have hcount := count_of_tail h.head (by omega) htail
  rw [hcount]
  exact ⟨hc, htail⟩

/-- The test for a full ring. -/
theorem Ok.full_iff : r.tail = (r.head + cap) % modulus ↔ r.count modulus = cap := by
  constructor
  · intro hfull
    exact count_of_tail h.head hcap hfull
  · intro hcount
    rw [(h.tail_eq hcap).2, hcount]

/-- The test for an empty ring. -/
theorem Ok.empty_iff : r.head = r.tail ↔ r.count modulus = 0 := by
  constructor
  · intro hempty
    refine count_of_tail h.head (by omega) ?_
    rw [Nat.add_zero, Nat.mod_eq_of_lt h.head, hempty]
  · intro hcount
    rw [(h.tail_eq hcap).2, hcount, Nat.add_zero, Nat.mod_eq_of_lt h.head]

theorem Ok.push_tail (x : α) :
    (r.push cap modulus x).tail = (r.head + (r.count modulus + 1)) % modulus := by
  change (r.tail + 1) % modulus = _
  rw [(h.tail_eq hcap).2, Nat.mod_add_mod, Nat.add_assoc]

theorem Ok.push (hroom : r.count modulus < cap) (x : α) : (r.push cap modulus x).Ok cap modulus :=
  ⟨h.head, r.count modulus + 1, hroom, h.push_tail hcap x⟩

section

variable (hsome : 0 < r.count modulus)
include hsome

theorem Ok.pop_tail :
    (r.pop modulus).tail = ((r.pop modulus).head + (r.count modulus - 1)) % modulus := by
  have hsum : r.head + 1 + (r.count modulus - 1) = r.head + r.count modulus := by omega
  change r.tail = ((r.head + 1) % modulus + (r.count modulus - 1)) % modulus
  rw [Nat.mod_add_mod, hsum]
  exact (h.tail_eq hcap).2

theorem Ok.pop : (r.pop modulus).Ok cap modulus := by
  have hle := (h.tail_eq hcap).1
  exact ⟨Nat.mod_lt _ (by omega), r.count modulus - 1, by omega, h.pop_tail hcap hsome⟩

theorem Ok.unpush_tail : (r.unpush modulus).tail = (r.head + (r.count modulus - 1)) % modulus := by
  change (r.tail + modulus - 1) % modulus = _
  have hsum : r.tail + modulus - 1 = r.tail + (modulus - 1) := by omega
  have hback : r.head + r.count modulus + (modulus - 1) =
      r.head + (r.count modulus - 1) + modulus := by omega
  rw [hsum, (h.tail_eq hcap).2, Nat.mod_add_mod, hback, Nat.add_mod_right]

theorem Ok.unpush : (r.unpush modulus).Ok cap modulus := by
  have hle := (h.tail_eq hcap).1
  exact ⟨h.head, r.count modulus - 1, by omega, h.unpush_tail hcap hsome⟩

/-- Taking back removes the newest element. -/
theorem Ok.contents_unpush :
    (r.unpush modulus).contents cap modulus = (r.contents cap modulus).dropLast := by
  have hle := (h.tail_eq hcap).1
  have hcount : (r.unpush modulus).count modulus = r.count modulus - 1 :=
    count_of_tail h.head (by omega) (h.unpush_tail hcap hsome)
  have hsucc : r.count modulus = (r.count modulus - 1) + 1 := by omega
  rw [contents, contents, hcount, hsucc, range_succ, map_append, map_singleton,
    dropLast_concat, Nat.add_sub_cancel]
  rfl

end

/-- The element put in last. -/
theorem Ok.getLast?_contents (hdvd : cap ∣ modulus) (hsome : 0 < r.count modulus) :
    (r.contents cap modulus).getLast? = some (r.data ((r.unpush modulus).tail % cap)) := by
  have hsucc : r.count modulus = (r.count modulus - 1) + 1 := by omega
  rw [h.unpush_tail hcap hsome, Nat.mod_mod_of_dvd _ hdvd, contents, hsucc, range_succ,
    map_append, map_singleton, getLast?_concat, Nat.add_sub_cancel]

end

variable (hdvd : cap ∣ modulus)
include hdvd

/-- A write to the free slot at the tail changes nothing. -/
theorem Ok.contents_write (h : r.Ok cap modulus) (hroom : r.count modulus < cap) (x : α) :
    { r with data := update r.data (r.tail % cap) x }.contents cap modulus =
      r.contents cap modulus := by
  refine map_congr_left fun t ht => ?_
  rw [mem_range] at ht
  apply update_of_ne
  rw [(h.tail_eq hcap).2, Nat.mod_mod_of_dvd _ hdvd]
  intro heq
  have hmod : t ≡ r.count modulus [MOD cap] := Nat.ModEq.add_left_cancel' r.head heq
  have ht : t < r.count modulus := ht
  have hsame := Nat.ModEq.eq_of_lt_of_lt hmod (by omega) hroom
  omega

/-- Putting an element in appends it. -/
theorem Ok.contents_push (h : r.Ok cap modulus) (hroom : r.count modulus < cap) (x : α) :
    (r.push cap modulus x).contents cap modulus = r.contents cap modulus ++ [x] := by
  have hslot : r.tail % cap = (r.head + r.count modulus) % cap := by
    rw [(h.tail_eq hcap).2, Nat.mod_mod_of_dvd _ hdvd]
  have hcount : (r.push cap modulus x).count modulus = r.count modulus + 1 :=
    count_of_tail h.head (by omega) (h.push_tail hcap x)
  have hnew : (r.push cap modulus x).data ((r.head + r.count modulus) % cap) = x := by
    rw [← hslot]
    exact update_self _ _ _
  rw [contents, hcount, range_succ, map_append, map_singleton]
  exact congrArg₂ (· ++ ·) (h.contents_write hcap hdvd hroom x) (congrArg (fun y => [y]) hnew)

/-- Taking an element out removes the oldest. -/
theorem Ok.contents_pop (h : r.Ok cap modulus) (hsome : 0 < r.count modulus) :
    r.contents cap modulus = r.front cap :: (r.pop modulus).contents cap modulus := by
  have hle := (h.tail_eq hcap).1
  have hcount : (r.pop modulus).count modulus = r.count modulus - 1 :=
    count_of_tail (Nat.mod_lt _ (by omega)) (by omega) (h.pop_tail hcap hsome)
  have hslot : ∀ t, ((r.pop modulus).head + t) % cap = (r.head + (t + 1)) % cap := by
    intro t
    change ((r.head + 1) % modulus + t) % cap = _
    rw [Nat.add_mod, Nat.mod_mod_of_dvd _ hdvd, ← Nat.add_mod, Nat.add_assoc,
      Nat.add_comm 1 t]
  have hsucc : r.count modulus = (r.count modulus - 1) + 1 := by omega
  rw [contents, contents, hcount, hsucc, range_succ_eq_map, map_cons, map_map,
    Nat.add_sub_cancel]
  refine congrArg₂ _ (by rw [Nat.add_zero]; rfl) ?_
  refine map_congr_left fun t _ => ?_
  rw [hslot]
  rfl

end Bounds

theorem length_contents (cap modulus : Nat) (r : RingBuffer α) :
    (r.contents cap modulus).length = r.count modulus := by
  rw [contents, length_map, length_range]

end RingBuffer
