/-
Singly linked lists and rings: paths along a successor function, and the loops that follow them.
-/
import Mathlib.Data.List.Nodup

universe u

namespace LinkedPath

open List

variable {α : Type u}

/-- From `a` the successors go through `l` to `b`. -/
def Path (next : α → α) : α → List α → α → Prop
  | a, [], b => next a = b
  | a, x :: l, b => next a = x ∧ Path next x l b

variable {next next' : α → α} {a b x : α} {l l1 l2 : List α}

theorem path_append : Path next a (l1 ++ x :: l2) b ↔ Path next a l1 x ∧ Path next x l2 b := by
  induction l1 generalizing a with
  | nil => exact Iff.rfl
  | cons y l1 ih => simp only [cons_append, Path, ih, and_assoc]

/-- A path uses the successors of its nodes. -/
theorem Path.congr (h : Path next a l b) (hsame : ∀ y ∈ a :: l, next' y = next y) :
    Path next' a l b := by
  induction l generalizing a with
  | nil => exact (hsame a mem_cons_self).trans h
  | cons y l ih =>
    refine ⟨(hsame a mem_cons_self).trans h.1, ih h.2 fun z hz => ?_⟩
    exact hsame z (mem_cons_of_mem a hz)

/-- A ring may be entered at any node. -/
theorem Path.rotate (h : Path next a (l1 ++ x :: l2) a) : Path next x (l2 ++ a :: l1) x := by
  obtain ⟨hfirst, hsecond⟩ := path_append.mp h
  exact path_append.mpr ⟨hsecond, hfirst⟩

/-- The node before `x` in a ring. -/
theorem Path.split_at_next (h : Path next a l a) (hb : b ∈ a :: l) (hnext : next b = x)
    (hx : x ≠ a) : ∃ l1 l2, l = l1 ++ x :: l2 ∧ l1.getLastD a = b := by
  rcases mem_cons.mp hb with rfl | hb
  · cases l with
    | nil => exact absurd (hnext.symm.trans h) hx
    | cons y l =>
      obtain rfl : y = x := h.1.symm.trans hnext
      exact ⟨[], l, rfl, rfl⟩
  · obtain ⟨m1, m2, rfl⟩ := append_of_mem hb
    have hrest := (path_append.mp h).2
    cases m2 with
    | nil => exact absurd (hnext.symm.trans hrest) hx
    | cons y m2 =>
      obtain rfl : y = x := hrest.1.symm.trans hnext
      refine ⟨m1 ++ [b], m2, ?_, ?_⟩
      · rw [append_assoc]
        rfl
      · rw [getLastD_concat]

theorem getLastD_mem (l : List α) (a : α) : l.getLastD a ∈ a :: l := by
  induction l generalizing a with
  | nil => exact mem_cons_self
  | cons y l ih =>
    rw [getLastD_cons]
    exact mem_cons_of_mem a (ih y)

theorem le_getLastD {a : Nat} {l : List Nat} (hsorted : (a :: l).Pairwise (· < ·)) :
    ∀ z ∈ a :: l, z ≤ l.getLastD a := by
  induction l generalizing a with
  | nil =>
    intro z hz
    exact Nat.le_of_eq (mem_singleton.mp hz)
  | cons y l ih =>
    obtain ⟨ha, hrest⟩ := pairwise_cons.mp hsorted
    rw [getLastD_cons]
    refine forall_mem_cons.mpr ⟨?_, ih hrest⟩
    have hay := ha y mem_cons_self
    have hy := ih hrest y mem_cons_self
    omega

/-- What follows a node follows any node with the same successor. -/
theorem Path.of_next_eq {y : α} (h : Path next x l b) (hy : next' y = next x)
    (hsame : ∀ z ∈ l, next' z = next z) : Path next' y l b := by
  cases l with
  | nil => exact hy.trans h
  | cons z l => exact ⟨hy.trans h.1, h.2.congr hsame⟩

theorem Path.tail (h : Path next a (l1 ++ l2) b) : Path next (l1.getLastD a) l2 b := by
  induction l1 generalizing a with
  | nil => exact h
  | cons y l1 ih =>
    rw [getLastD_cons]
    exact ih h.2

/-- Another tail after the nodes `l1`. -/
theorem Path.splice {c : α} {l3 : List α} (h : Path next a (l1 ++ l2) b) (hnodup : (a :: l1).Nodup)
    (htail : Path next' (l1.getLastD a) l3 c)
    (hsame : ∀ y ∈ a :: l1, y ≠ l1.getLastD a → next' y = next y) :
    Path next' a (l1 ++ l3) c := by
  induction l1 generalizing a with
  | nil => exact htail
  | cons y l1 ih =>
    rw [getLastD_cons] at htail hsame
    obtain ⟨ha, hrest⟩ := nodup_cons.mp hnodup
    have hne : a ≠ l1.getLastD y := fun heq => ha (heq ▸ getLastD_mem l1 y)
    refine ⟨(hsame a mem_cons_self hne).trans h.1, ih h.2 hrest htail fun z hz => ?_⟩
    exact hsame z (mem_cons_of_mem a hz)

/-- A ring entered at any of its nodes. -/
theorem Path.exists_rotate (h : Path next a l a) (hx : x ∈ a :: l) :
    ∃ l', Path next x l' x ∧ (x :: l').Perm (a :: l) := by
  rcases mem_cons.mp hx with rfl | hx
  · exact ⟨l, h, List.Perm.refl _⟩
  · obtain ⟨m1, m2, rfl⟩ := append_of_mem hx
    refine ⟨m2 ++ a :: m1, h.rotate, ?_⟩
    have hswap : (x :: m2 ++ a :: m1).Perm (a :: m1 ++ x :: m2) := perm_append_comm
    exact hswap

/-- In a ring in ascending order every node leads to the next one, and the last to the first. -/
theorem Path.next_cases {a : Nat} {next : Nat → Nat} {l : List Nat} (h : Path next a l a)
    (hsorted : (a :: l).Pairwise (· < ·)) {y : Nat} (hy : y ∈ a :: l) :
    next y = a ∧ (∀ z ∈ a :: l, z ≤ y) ∨
      y < next y ∧ next y ∈ l ∧ ∀ z ∈ a :: l, z ≤ y ∨ next y ≤ z := by
  obtain ⟨l1, l2, hsplit⟩ := append_of_mem hy
  have hpath : Path next y l2 a := by
    cases l1 with
    | nil =>
      obtain ⟨rfl, rfl⟩ := cons.inj hsplit
      exact h
    | cons x l1 =>
      obtain ⟨rfl, rfl⟩ := cons.inj hsplit
      exact (path_append.mp h).2
  rw [hsplit, pairwise_append] at hsorted
  obtain ⟨-, hright, hcross⟩ := hsorted
  have hbefore : ∀ z ∈ l1, z < y := fun z hz => hcross z hz y mem_cons_self
  obtain ⟨hafter, hrest⟩ := pairwise_cons.mp hright
  cases l2 with
  | nil =>
    refine .inl ⟨hpath, fun z hz => ?_⟩
    rw [hsplit, mem_append, mem_singleton] at hz
    rcases hz with hz | rfl
    · exact Nat.le_of_lt (hbefore z hz)
    · exact Nat.le_refl z
  | cons q l2 =>
    have hnext : next y = q := hpath.1
    have hlt := hafter q mem_cons_self
    have hq : q ∈ a :: l := by
      rw [hsplit]
      exact mem_append_right _ (mem_cons_of_mem y mem_cons_self)
    rw [hnext]
    refine .inr ⟨hlt, ?_, fun z hz => ?_⟩
    · refine (mem_cons.mp hq).resolve_left ?_
      rintro rfl
      cases l1 with
      | nil => exact Nat.lt_irrefl _ ((cons.inj hsplit).1 ▸ hlt)
      | cons x l1 =>
        obtain ⟨rfl, -⟩ := cons.inj hsplit
        have hxy := hbefore q mem_cons_self
        omega
    · rw [hsplit, mem_append, mem_cons, mem_cons] at hz
      rcases hz with hz | rfl | rfl | hz
      · exact .inl (Nat.le_of_lt (hbefore z hz))
      · exact .inl (Nat.le_refl z)
      · exact .inr (Nat.le_refl z)
      · exact .inr (Nat.le_of_lt ((pairwise_cons.mp hrest).1 z hz))

/-! ## Loops along a path -/

/-- The loop `for (p = a; !test(p); p = next(p))`.  `none` when the bound on the number of rounds
is used up. -/
def follow (next : α → α) (test : α → Bool) : Nat → α → Option α
  | 0, _ => none
  | fuel + 1, a => if test a then some a else follow next test fuel (next a)

/-- The loop finds the only node of the path that passes the test. -/
theorem Path.follow {test : α → Bool} (h : Path next a l b) (hx : x ∈ a :: l) (htest : test x)
    (honly : ∀ y ∈ a :: l, test y → y = x) {fuel : Nat} (hfuel : l.length < fuel) :
    LinkedPath.follow next test fuel a = some x := by
  induction l generalizing a fuel with
  | nil =>
    obtain ⟨fuel, rfl⟩ := Nat.exists_eq_add_one.mpr hfuel
    obtain rfl := mem_singleton.mp hx
    rw [LinkedPath.follow, if_pos htest]
  | cons y l ih =>
    obtain ⟨fuel, rfl⟩ := Nat.exists_eq_add_one.mpr (Nat.zero_lt_of_lt hfuel)
    rw [LinkedPath.follow]
    by_cases ha : test a
    · rw [if_pos ha, honly a mem_cons_self ha]
    · rw [if_neg ha, h.1]
      have hne : x ≠ a := fun heq => ha (heq ▸ htest)
      refine ih h.2 ((mem_cons.mp hx).resolve_left hne) ?_ (Nat.lt_of_succ_lt_succ hfuel)
      exact fun z hz => honly z (mem_cons_of_mem a hz)

variable [DecidableEq α]

/-- The loop `for (p = next(prev); ; prev = p, p = next(p))` that ends at the first node with
`fits`, giving the node before it, or with nothing at the node `last`. -/
def scan (next : α → α) (fits : α → Bool) (last : α) : Nat → α → Option (Option α)
  | 0, _ => none
  | fuel + 1, prev =>
    if fits (next prev) then some (some prev)
    else if next prev = last then some none
    else scan next fits last fuel (next prev)

theorem Path.scan_aux {fits : α → Bool} {last : α} (h : Path next a l last) (hlast : last ∉ l)
    {fuel : Nat} (hfuel : l.length < fuel) :
    (∃ prev ∈ a :: l, scan next fits last fuel a = some (some prev) ∧ fits (next prev)) ∨
      scan next fits last fuel a = some none ∧ (∀ y ∈ l, fits y = false) ∧ fits last = false := by
  induction l generalizing a fuel with
  | nil =>
    obtain ⟨fuel, rfl⟩ := Nat.exists_eq_add_one.mpr hfuel
    have hnext : next a = last := h
    rw [scan, hnext]
    cases hfits : fits last with
    | true => exact .inl ⟨a, mem_cons_self, if_pos rfl, hnext ▸ hfits⟩
    | false => exact .inr ⟨by rw [if_neg Bool.false_ne_true, if_pos rfl], nofun, rfl⟩
  | cons y l ih =>
    obtain ⟨fuel, rfl⟩ := Nat.exists_eq_add_one.mpr (Nat.zero_lt_of_lt hfuel)
    obtain ⟨hnext, hrest⟩ := h
    have hy : y ≠ last := fun heq => hlast (heq ▸ mem_cons_self)
    have hout : last ∉ l := fun hin => hlast (mem_cons_of_mem y hin)
    rw [scan, hnext]
    cases hfits : fits y with
    | true => exact .inl ⟨a, mem_cons_self, if_pos rfl, hnext ▸ hfits⟩
    | false =>
      rw [if_neg Bool.false_ne_true, if_neg hy]
      rcases ih hrest hout (Nat.lt_of_succ_lt_succ hfuel) with ⟨prev, hmem, hscan, hprev⟩ | hnone
      · exact .inl ⟨prev, mem_cons_of_mem a hmem, hscan, hprev⟩
      · refine .inr ⟨hnone.1, ?_, hnone.2.2⟩
        rintro z (_ | ⟨_, hz⟩)
        · exact hfits
        · exact hnone.2.1 z hz

/-- Once around a ring: the loop finds a node that fits, or there is none. -/
theorem Path.scan (fits : α → Bool) (h : Path next a l a) (ha : a ∉ l) {fuel : Nat}
    (hfuel : l.length < fuel) :
    (∃ prev ∈ a :: l, LinkedPath.scan next fits a fuel a = some (some prev) ∧ fits (next prev)) ∨
      LinkedPath.scan next fits a fuel a = some none ∧ ∀ y ∈ a :: l, fits y = false := by
  rcases h.scan_aux ha hfuel with hfound | ⟨hscan, hl, hlast⟩
  · exact .inl hfound
  · exact .inr ⟨hscan, forall_mem_cons.mpr ⟨hlast, hl⟩⟩

end LinkedPath
