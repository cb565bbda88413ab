/-
Radix tables: trees of tables of fan-out `k` given by a child function, with
the table for a key reached by following its digits.  The laws say how one
table entry changes what every key reaches.
-/
import Mathlib.Data.List.Perm.Basic
import Mathlib.Data.List.Range
import Mathlib.Data.List.Nodup
import Mathlib.Algebra.Group.Nat.Defs

universe u

section ListLemmas

variable {β : Type u}

/-- Filling one hole of a partial map on `[0, n)` adds one element to its list
of values. -/
theorem List.filterMap_range_perm_insert {f f' : Nat → Option β} {n x : Nat}
    {y : β} (hx : x < n) (hother : ∀ z, z < n → z ≠ x → f' z = f z)
    (hold : f x = none) (hnew : f' x = some y) :
    ((range n).filterMap f').Perm (y :: (range n).filterMap f) := by
  obtain ⟨before, after, hsplit⟩ := append_of_mem (mem_range.2 hx)
  have hnodup : (before ++ x :: after).Nodup := hsplit ▸ nodup_range
  have hmem : ∀ z ∈ before ++ after, z < n ∧ z ≠ x := by
    intro z hz
    have hin : z ∈ range n := by
      rw [hsplit]
      simp only [mem_append, mem_cons] at hz ⊢
      tauto
    refine ⟨mem_range.1 hin, ?_⟩
    rintro rfl
    exact (nodup_middle.1 hnodup).notMem hz
  have hsame : ∀ l : List Nat, (∀ z ∈ l, z ∈ before ++ after) → l.filterMap f' = l.filterMap f := by
    intro l hl
    apply filterMap_congr
    intro z hz
    exact hother z (hmem z (hl z hz)).1 (hmem z (hl z hz)).2
  rw [hsplit, filterMap_append, filterMap_append,
    filterMap_cons_some hnew, filterMap_cons_none hold,
    hsame before (fun z hz => mem_append_left _ hz),
    hsame after (fun z hz => mem_append_right _ hz)]
  exact perm_middle

/-- A partial map on `[0, n)` whose values are listed without repetition is
injective. -/
theorem List.eq_of_nodup_filterMap_range {f : Nat → Option β} {n x x' : Nat} {y : β}
    (hnodup : ((range n).filterMap f).Nodup) (hx : x < n) (hx' : x' < n)
    (hvalue : f x = some y) (hvalue' : f x' = some y) : x = x' := by
  rw [List.Nodup, pairwise_filterMap] at hnodup
  have hne : ∀ a a', a < a' → a' < n → f a = some y → f a' ≠ some y := by
    intro a a' hlt ha' hfa hfa'
    have hpair := pairwise_iff_getElem.1 hnodup a a'
      (by simpa using hlt.trans ha') (by simpa using ha') hlt
    simp only [getElem_range] at hpair
    exact hpair y hfa y hfa' rfl
  rcases lt_trichotomy x x' with hlt | heq | hgt
  · exact absurd hvalue' (hne x x' hlt hx' hvalue)
  · exact heq
  · exact absurd hvalue (hne x' x hgt hx hvalue')

theorem List.range_mul_flatMap (k m : Nat) :
    range (k * m) = (range k).flatMap fun i => (range m).map (i * m + ·) := by
  induction k with
  | zero => simp
  | succ k ih =>
    rw [Nat.succ_mul, range_add, ih, range_succ, flatMap_append]
    simp

end ListLemmas

namespace Radix

open List Option

variable (k : Nat)

/-- The table reached from `root` after the `d` digits of `x`, most
significant first. -/
def node (child : Nat → Nat → Option Nat) (root : Nat) : Nat → Nat → Option Nat
  | 0, _ => some root
  | d + 1, x => (node child root d (x / k)).bind fun t => child t (x % k)

/-- The tables at depth `d`. -/
def nodesAt (child : Nat → Nat → Option Nat) (root d : Nat) : List Nat :=
  (range (k ^ d)).filterMap (node k child root d)

/-- The tables at depths `0 .. h`. -/
def tables (child : Nat → Nat → Option Nat) (root : Nat) : Nat → List Nat
  | 0 => nodesAt k child root 0
  | h + 1 => tables child root h ++ nodesAt k child root (h + 1)

/-- No table of depth at most `h` is reached by two keys. -/
def Distinct (child : Nat → Nat → Option Nat) (root h : Nat) : Prop :=
  ∀ d d' x x' t, d ≤ h → d' ≤ h → x < k ^ d → x' < k ^ d' →
    node k child root d x = some t → node k child root d' x' = some t →
      d = d' ∧ x = x'

variable {k} {child child' : Nat → Nat → Option Nat} {root h d t : Nat}

@[simp] theorem node_zero (x : Nat) : node k child root 0 x = some root := rfl

theorem node_succ (x : Nat) :
    node k child root (d + 1) x = (node k child root d (x / k)).bind fun t => child t (x % k) := rfl

theorem div_lt_pow {x : Nat} (hx : x < k ^ (d + 1)) : x / k < k ^ d := by
  rw [Nat.pow_succ, Nat.mul_comm] at hx
  exact Nat.div_lt_of_lt_mul hx

theorem mul_add_div {y i : Nat} (hi : i < k) : (y * k + i) / k = y := by
  rw [Nat.mul_comm, Nat.mul_add_div (by omega), Nat.div_eq_of_lt hi, Nat.add_zero]

theorem mul_add_mod {y i : Nat} (hi : i < k) : (y * k + i) % k = i := by
  rw [Nat.mul_comm, Nat.mul_add_mod, Nat.mod_eq_of_lt hi]

theorem mul_add_lt_pow {y i : Nat} (hy : y < k ^ d) (hi : i < k) :
    y * k + i < k ^ (d + 1) := by
  have hstep : (y + 1) * k ≤ k ^ d * k := Nat.mul_le_mul_right k hy
  rw [Nat.pow_succ]
  rw [Nat.succ_mul] at hstep
  omega

theorem mem_nodesAt_iff :
    t ∈ nodesAt k child root d ↔ ∃ x, x < k ^ d ∧ node k child root d x = some t := by
  simp [nodesAt, mem_filterMap, mem_range]

theorem mem_tables_iff : t ∈ tables k child root h ↔
      ∃ d x, d ≤ h ∧ x < k ^ d ∧ node k child root d x = some t := by
  induction h with
  | zero =>
    simp only [tables, mem_nodesAt_iff, Nat.le_zero]
    constructor
    · rintro ⟨x, hx, hnode⟩
      exact ⟨0, x, rfl, hx, hnode⟩
    · rintro ⟨d, x, rfl, hx, hnode⟩
      exact ⟨x, hx, hnode⟩
  | succ h ih =>
    simp only [tables, mem_append, ih, mem_nodesAt_iff]
    constructor
    · rintro (⟨d, x, hd, hx, hnode⟩ | ⟨x, hx, hnode⟩)
      · exact ⟨d, x, by omega, hx, hnode⟩
      · exact ⟨h + 1, x, le_refl _, hx, hnode⟩
    · rintro ⟨d, x, hd, hx, hnode⟩
      by_cases hlast : d = h + 1
      · subst hlast
        exact .inr ⟨x, hx, hnode⟩
      · exact .inl ⟨d, x, by omega, hx, hnode⟩

theorem tables_zero : tables k child root 0 = [root] := by
  simp [tables, nodesAt]

theorem root_mem_tables : root ∈ tables k child root h :=
  mem_tables_iff.2 ⟨0, 0, Nat.zero_le h, by simp, rfl⟩

theorem node_mem_tables {x : Nat} (hd : d ≤ h) (hx : x < k ^ d)
    (hnode : node k child root d x = some t) : t ∈ tables k child root h :=
  mem_tables_iff.2 ⟨d, x, hd, hx, hnode⟩

section

variable (hk : 0 < k) (hsame : ∀ u ∈ tables k child root h, ∀ i, i < k → child' u i = child u i)
include hk hsame

/-- What a key reaches depends only on the tables on the way. -/
theorem node_congr : ∀ d x, d ≤ h + 1 → x < k ^ d →
      node k child' root d x = node k child root d x := by
  intro d
  induction d with
  | zero => intros; rfl
  | succ d ih =>
    intro x hd hx
    rw [node_succ, node_succ, ih (x / k) (by omega) (div_lt_pow hx)]
    cases hnode : node k child root d (x / k) with
    | none => rfl
    | some u =>
      have hu : u ∈ tables k child root h := node_mem_tables (by omega) (div_lt_pow hx) hnode
      exact hsame u hu (x % k) (Nat.mod_lt x hk)

theorem nodesAt_congr (hd : d ≤ h + 1) : nodesAt k child' root d = nodesAt k child root d := by
  apply filterMap_congr
  intro x hx
  exact node_congr hk hsame d x hd (mem_range.1 hx)

theorem tables_congr : tables k child' root h = tables k child root h := by
  have hlower : ∀ h', h' ≤ h → tables k child' root h' = tables k child root h' := by
    intro h'
    induction h' with
    | zero => intro _; exact nodesAt_congr hk hsame (Nat.zero_le _)
    | succ h' ih =>
      intro hle
      simp only [tables]
      rw [ih (by omega), nodesAt_congr hk hsame (by omega)]
  exact hlower h le_rfl

end

theorem tables_eq_of_node_eq (hnode : ∀ d x, d ≤ h → x < k ^ d →
      node k child' root d x = node k child root d x) :
    tables k child' root h = tables k child root h := by
  induction h with
  | zero => exact filterMap_congr fun x hx => hnode 0 x (le_refl 0) (mem_range.1 hx)
  | succ h ih =>
    rw [tables, tables, ih fun d x hd hx => hnode d x (by omega) hx]
    congr 1
    exact filterMap_congr fun x hx =>
      hnode (h + 1) x (le_refl _) (mem_range.1 hx)

theorem node_injective_of_nodup (hnodup : (nodesAt k child root d).Nodup)
    {x x' : Nat} (hx : x < k ^ d) (hx' : x' < k ^ d) (hnode : node k child root d x = some t)
    (hnode' : node k child root d x' = some t) : x = x' := by
  rw [nodesAt] at hnodup
  exact eq_of_nodup_filterMap_range hnodup hx hx' hnode hnode'

/-- Tables listed without repetition are reached by one key each. -/
theorem distinct_of_nodup (hnodup : (tables k child root h).Nodup) :
    Distinct k child root h := by
  induction h with
  | zero =>
    intro d d' x x' t hd hd' hx hx' _ _
    obtain rfl : d = 0 := by omega
    obtain rfl : d' = 0 := by omega
    simp only [Nat.pow_zero, Nat.lt_one_iff] at hx hx'
    exact ⟨rfl, hx.trans hx'.symm⟩
  | succ h ih =>
    rw [tables, nodup_append'] at hnodup
    obtain ⟨hlower, hlast, hdisj⟩ := hnodup
    intro d d' x x' t hd hd' hx hx' hnode hnode'
    have hcase : ∀ e y, e ≤ h + 1 → y < k ^ e → node k child root e y = some t →
        (e ≤ h ∧ t ∈ tables k child root h) ∨ (e = h + 1 ∧ t ∈ nodesAt k child root (h + 1)) := by
      intro e y he hy hnode
      by_cases hlast : e = h + 1
      · subst hlast
        exact .inr ⟨rfl, mem_nodesAt_iff.2 ⟨y, hy, hnode⟩⟩
      · have hle : e ≤ h := by omega
        exact .inl ⟨hle, node_mem_tables hle hy hnode⟩
    rcases hcase d x hd hx hnode with ⟨hle, hmem⟩ | ⟨rfl, hmem⟩ <;>
      rcases hcase d' x' hd' hx' hnode' with ⟨hle', hmem'⟩ | ⟨rfl, hmem'⟩
    · exact ih hlower d d' x x' t hle hle' hx hx' hnode hnode'
    · exact absurd hmem' (hdisj hmem)
    · exact absurd hmem (hdisj hmem')
    · exact ⟨rfl, node_injective_of_nodup hlast hx hx' hnode hnode'⟩

/-- Writing entry `i` of the table reached by `y` at depth `d` changes what is
reached through that entry, at depth `d + 1`, and nothing above it. -/
theorem node_setEntry (hk : 0 < k) (hdist : Distinct k child root d)
    {y i : Nat} {o : Option Nat} (hy : y < k ^ d) (hi : i < k) (ht : node k child root d y = some t)
    (hset : child' t i = o) (hother : ∀ u j, u ∈ tables k child root d → j < k → ¬ (u = t ∧ j = i) →
      child' u j = child u j) :
    ∀ d' x, d' ≤ d + 1 → x < k ^ d' → node k child' root d' x =
        if d' = d + 1 ∧ x = y * k + i then o else node k child root d' x := by
  intro d'
  induction d' with
  | zero => intro x _ _; simp
  | succ d' ih =>
    intro x hd' hx
    have hxk := div_lt_pow hx
    have hprev : node k child' root d' (x / k) = node k child root d' (x / k) := by
      rw [ih (x / k) (by omega) hxk, if_neg (by omega)]
    rw [node_succ, hprev]
    by_cases hpoint : d' + 1 = d + 1 ∧ x = y * k + i
    · obtain ⟨hdd, rfl⟩ := hpoint
      obtain rfl : d' = d := by omega
      rw [if_pos ⟨rfl, rfl⟩, mul_add_div hi, mul_add_mod hi, ht]
      exact hset
    · rw [if_neg hpoint, node_succ]
      cases hnode : node k child root d' (x / k) with
      | none => rfl
      | some u =>
        have hu : u ∈ tables k child root d := node_mem_tables (by omega) hxk hnode
        apply hother u (x % k) hu (Nat.mod_lt x hk)
        rintro ⟨rfl, rfl⟩
        obtain ⟨rfl, hxy⟩ := hdist d' d (x / k) y u (by omega) (le_refl d) hxk hy hnode ht
        exact hpoint ⟨rfl, by rw [← hxy, Nat.div_add_mod']⟩

/-- Linking a childless table `new` into an empty entry makes it the table
reached by that entry, and changes nothing else at any depth. -/
theorem node_link (hk : 0 < k) (hdist : Distinct k child root h)
    {y i new : Nat} (hd : d ≤ h) (hy : y < k ^ d) (hi : i < k) (ht : node k child root d y = some t)
    (hempty : child t i = none) (hset : child' t i = some new)
    (hnew : ∀ j, j < k → child' new j = none)
    (hother : ∀ u j, u ∈ tables k child root h → j < k → ¬ (u = t ∧ j = i) →
      child' u j = child u j) :
    ∀ d' x, d' ≤ h + 1 → x < k ^ d' → node k child' root d' x =
        if d' = d + 1 ∧ x = y * k + i then some new else node k child root d' x := by
  intro d'
  induction d' with
  | zero => intro x _ _; simp
  | succ d' ih =>
    intro x hd' hx
    have hxk := div_lt_pow hx
    rw [node_succ, ih (x / k) (by omega) hxk]
    by_cases hbelow : d' = d + 1 ∧ x / k = y * k + i
    · -- below the new table: nothing there, as there was nothing before
      obtain ⟨rfl, hxy⟩ := hbelow
      rw [if_pos ⟨rfl, hxy⟩, if_neg (by omega), node_succ, hxy, node_succ,
        mul_add_div hi, mul_add_mod hi, ht]
      simp only [bind_some, hempty, bind_none]
      exact hnew (x % k) (Nat.mod_lt x hk)
    · rw [if_neg hbelow]
      by_cases hpoint : d' + 1 = d + 1 ∧ x = y * k + i
      · obtain ⟨hdd, rfl⟩ := hpoint
        obtain rfl : d' = d := by omega
        rw [if_pos ⟨rfl, rfl⟩, mul_add_div hi, mul_add_mod hi, ht]
        exact hset
      · rw [if_neg hpoint, node_succ]
        cases hnode : node k child root d' (x / k) with
        | none => rfl
        | some u =>
          have hu : u ∈ tables k child root h := node_mem_tables (by omega) hxk hnode
          apply hother u (x % k) hu (Nat.mod_lt x hk)
          rintro ⟨rfl, rfl⟩
          obtain ⟨rfl, hxy⟩ := hdist d' d (x / k) y u (by omega) hd hxk hy hnode ht
          exact hpoint ⟨rfl, by rw [← hxy, Nat.div_add_mod']⟩

theorem tables_perm_link {y i new : Nat} (hdh : d + 1 ≤ h) (hy : y < k ^ d)
    (hi : i < k) (hempty : node k child root (d + 1) (y * k + i) = none)
    (hnode : ∀ d' x, d' ≤ h → x < k ^ d' → node k child' root d' x =
        if d' = d + 1 ∧ x = y * k + i then some new else node k child root d' x) :
    (tables k child' root h).Perm (new :: tables k child root h) := by
  have hlevel : ∀ e, e ≤ h → e ≠ d + 1 → nodesAt k child' root e = nodesAt k child root e := by
    intro e he hne
    apply filterMap_congr
    intro x hx
    rw [hnode e x he (mem_range.1 hx), if_neg (by omega)]
  have hinsert : (nodesAt k child' root (d + 1)).Perm (new :: nodesAt k child root (d + 1)) := by
    apply filterMap_range_perm_insert (mul_add_lt_pow hy hi) _ hempty
    · rw [hnode (d + 1) _ hdh (mul_add_lt_pow hy hi), if_pos ⟨rfl, rfl⟩]
    · intro z hz hne
      rw [hnode (d + 1) z hdh hz, if_neg (by omega)]
  have hlow : ∀ h', h' ≤ d → h' ≤ h → tables k child' root h' = tables k child root h' := by
    intro h'
    induction h' with
    | zero => intros; exact hlevel 0 (by omega) (by omega)
    | succ h' ih =>
      intro hle hle'
      simp only [tables]
      rw [ih (by omega) (by omega), hlevel (h' + 1) (by omega) (by omega)]
  have hhigh : ∀ e, d + 1 + e ≤ h → (tables k child' root (d + 1 + e)).Perm
      (new :: tables k child root (d + 1 + e)) := by
    intro e
    induction e with
    | zero =>
      intro _
      simp only [tables]
      rw [hlow d le_rfl (by omega)]
      exact (List.Perm.append_left _ hinsert).trans perm_middle
    | succ e ih =>
      intro hle
      rw [← Nat.add_assoc]
      simp only [tables]
      rw [hlevel (d + 1 + e + 1) (by omega) (by omega)]
      exact List.Perm.append_right _ (ih (by omega))
  obtain ⟨e, rfl⟩ := Nat.exists_eq_add_of_le hdh
  exact hhigh e le_rfl

/-- Reading a key from its most significant digit. -/
theorem node_top (i y : Nat) (hi : i < k) (hy : y < k ^ d) :
    node k child root (d + 1) (i * k ^ d + y) =
      (child root i).bind fun u => node k child u d y := by
  induction d generalizing y with
  | zero =>
    have hy0 : y = 0 := by simpa using hy
    subst hy0
    simp [node, Nat.mod_eq_of_lt hi]
  | succ d ih =>
    have hk : 0 < k := by omega
    have hdiv : (i * k ^ (d + 1) + y) / k = i * k ^ d + y / k := by
      rw [Nat.pow_succ, ← Nat.mul_assoc, Nat.mul_comm _ k, Nat.mul_add_div hk]
    have hmod : (i * k ^ (d + 1) + y) % k = y % k := by
      rw [Nat.pow_succ, ← Nat.mul_assoc, Nat.mul_comm _ k, Nat.mul_add_mod]
    rw [node_succ, hdiv, hmod, ih (y / k) (div_lt_pow hy), bind_assoc]
    rfl

/-- The tables at depth `d + 1`, grouped by the root's entries. -/
theorem nodesAt_succ : nodesAt k child root (d + 1) = (range k).flatMap fun i =>
        ((child root i).map fun u => nodesAt k child u d).getD [] := by
  rw [nodesAt, Nat.pow_succ, Nat.mul_comm, range_mul_flatMap, filterMap_flatMap]
  apply flatMap_congr
  intro i hi
  rw [filterMap_map]
  have hrow : ∀ y ∈ range (k ^ d), (node k child root (d + 1) ∘ (i * k ^ d + ·)) y =
        (child root i).bind fun u => node k child u d y := by
    intro y hy
    exact node_top i y (mem_range.1 hi) (mem_range.1 hy)
  rw [filterMap_congr hrow]
  cases child root i with
  | none => simp
  | some u => simp [nodesAt]

/-- The tables of depth up to `h + 1`: the root, and those below each of its
entries. -/
theorem tables_succ_perm : (tables k child root (h + 1)).Perm (root :: (range k).flatMap fun i =>
        ((child root i).map fun u => tables k child u h).getD []) := by
  induction h with
  | zero =>
    simp only [tables, nodesAt_succ]
    simp [nodesAt]
  | succ h ih =>
    rw [tables, nodesAt_succ]
    refine (List.Perm.append_right _ ih).trans ?_
    rw [cons_append]
    refine List.Perm.cons root ((flatMap_append_perm _ _ _).trans ?_)
    apply List.Perm.of_eq
    apply flatMap_congr
    intro i _
    cases child root i <;> simp [tables]

-- The lists of tables have up to `k ^ h` entries and are never to be computed.
attribute [irreducible] nodesAt tables

end Radix
