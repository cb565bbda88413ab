/-
Doubly linked rings.  Every node has a successor and a predecessor, and the ring is read as the
list of the nodes that follow its head.
-/
import Mathlib.Data.List.Nodup
import Mathlib.Logic.Function.Basic

universe u

namespace LinkedRing

open Function List

variable {α : Type u}

/-- The links of the nodes. -/
structure Links (α : Type u) where
  next : α → α
  prev : α → α

namespace Links

/-- The same nodes in the other direction. -/
def flip (r : Links α) : Links α := ⟨r.prev, r.next⟩

/-- From `a` the successors go through `l` to `b`, and the predecessors back. -/
def Chain (r : Links α) : α → List α → α → Prop
  | a, [], b => r.next a = b ∧ r.prev b = a
  | a, x :: l, b => r.next a = x ∧ r.prev x = a ∧ Chain r x l b

/-- The nodes after `head` are `l`, each of them once. -/
structure IsRing (r : Links α) (head : α) (l : List α) : Prop where
  nodup : (head :: l).Nodup
  chain : r.Chain head l head

variable {r r' : Links α} {a b x head : α} {l l1 l2 : List α}

theorem chain_append : r.Chain a (l1 ++ x :: l2) b ↔ r.Chain a l1 x ∧ r.Chain x l2 b := by
  induction l1 generalizing a with
  | nil => simp only [nil_append, Chain, and_assoc]
  | cons y l1 ih => simp only [cons_append, Chain, ih, and_assoc]

/-- A chain uses the successors of all its nodes but the last, and the predecessors of all but
the first. -/
theorem Chain.congr (h : r.Chain a l b) (hnext : ∀ y ∈ a :: l, r'.next y = r.next y)
    (hprev : ∀ y ∈ l ++ [b], r'.prev y = r.prev y) : r'.Chain a l b := by
  induction l generalizing a with
  | nil =>
    refine ⟨?_, ?_⟩
    · rw [hnext a mem_cons_self]
      exact h.1
    · rw [hprev b mem_cons_self]
      exact h.2
  | cons y l ih =>
    obtain ⟨hay, hya, hrest⟩ := h
    refine ⟨?_, ?_, ih hrest ?_ ?_⟩
    · rw [hnext a mem_cons_self]
      exact hay
    · rw [hprev y mem_cons_self]
      exact hya
    · exact fun z hz => hnext z (mem_cons_of_mem a hz)
    · exact fun z hz => hprev z (mem_cons_of_mem y hz)

theorem Chain.next_mem (h : r.Chain a l b) : r.next a ∈ l ++ [b] := by
  cases l with
  | nil => exact h.1 ▸ mem_cons_self
  | cons y l => exact h.1 ▸ mem_cons_self

theorem Chain.flip (h : r.Chain a l b) : r.flip.Chain b l.reverse a := by
  induction l generalizing a with
  | nil => exact ⟨h.2, h.1⟩
  | cons y l ih =>
    obtain ⟨hay, hya, hrest⟩ := h
    rw [reverse_cons, chain_append]
    exact ⟨ih hrest, hya, hay⟩

theorem Chain.prev_mem (h : r.Chain a l b) : r.prev b ∈ l ++ [a] := by
  have hmem := h.flip.next_mem
  rw [mem_append, mem_reverse, ← mem_append] at hmem
  exact hmem

theorem IsRing.flip (h : r.IsRing head l) : r.flip.IsRing head l.reverse :=
  ⟨nodup_cons.mpr ⟨by simpa using (nodup_cons.mp h.nodup).1,
    nodup_reverse.mpr (nodup_cons.mp h.nodup).2⟩, h.chain.flip⟩

/-! ## Relinking -/

variable [DecidableEq α]

def setNext (r : Links α) (x y : α) : Links α := { r with next := update r.next x y }

def setPrev (r : Links α) (x y : α) : Links α := { r with prev := update r.prev x y }

/-- Take a node out: its neighbours are linked to each other. -/
def unlink (r : Links α) (x : α) : Links α :=
  let r := r.setPrev (r.next x) (r.prev x)
  r.setNext (r.prev x) (r.next x)

/-- Put a node in after `head`. -/
def insertAfter (r : Links α) (head x : α) : Links α :=
  let r := r.setNext x (r.next head)
  let r := r.setPrev x head
  let r := r.setPrev (r.next head) x
  r.setNext head x

theorem unlink_next (hx : r.next x ≠ x) :
    (r.unlink x).next = update r.next (r.prev x) (r.next x) := by
  simp only [unlink, setNext, setPrev, update_of_ne hx.symm]

theorem unlink_prev : (r.unlink x).prev = update r.prev (r.next x) (r.prev x) := rfl

/-- Without `x` the chain goes through the other nodes. -/
theorem Chain.unlink (h : r.Chain a (l1 ++ x :: l2) b) (hnodup : (a :: (l1 ++ x :: l2)).Nodup)
    (hb : b ∉ l1 ++ x :: l2) : (r.unlink x).Chain a (l1 ++ l2) b := by
  have hsecond := (chain_append.mp h).2
  have hx : r.next x ≠ x := by
    intro heq
    have hmem := hsecond.next_mem
    rw [heq, mem_append, mem_singleton] at hmem
    have hout := (nodup_append'.mp (nodup_cons.mp hnodup).2).2.1
    rcases hmem with hin | rfl
    · exact (nodup_cons.mp hout).1 hin
    · exact hb (mem_append_right _ mem_cons_self)
  induction l1 generalizing a with
  | nil =>
    obtain ⟨hax, hxa, hrest⟩ := h
    rw [nil_append, nodup_cons, nodup_cons] at hnodup
    obtain ⟨ha, hxout, hl2⟩ := hnodup
    cases l2 with
    | nil =>
      refine ⟨?_, ?_⟩
      · rw [unlink_next hx, hxa, update_self, hrest.1]
      · rw [unlink_prev, hrest.1, update_self, hxa]
    | cons y l2 =>
      obtain ⟨hxy, hyx, hrest⟩ := hrest
      refine ⟨?_, ?_, hrest.congr ?_ ?_⟩
      · rw [unlink_next hx, hxa, update_self, hxy]
      · rw [unlink_prev, hxy, update_self, hxa]
      · intro z hz
        have hza : z ≠ a := fun heq => ha (mem_cons_of_mem x (heq ▸ hz))
        rw [unlink_next hx, hxa, update_of_ne hza]
      · intro z hz
        have hzy : z ≠ y := by
          rintro rfl
          rcases mem_append.mp hz with hin | hin
          · exact (nodup_cons.mp hl2).1 hin
          · refine hb ?_
            rw [← mem_singleton.mp hin]
            exact mem_cons_of_mem _ mem_cons_self
        rw [unlink_prev, hxy, update_of_ne hzy]
  | cons y l1 ih =>
    obtain ⟨hay, hya, hrest⟩ := h
    have hfirst := (chain_append.mp hrest).1
    rw [cons_append, nodup_cons] at hnodup
    obtain ⟨ha, hnodup⟩ := hnodup
    have hb' : b ∉ l1 ++ x :: l2 := fun hin => hb (mem_cons_of_mem y hin)
    refine ⟨?_, ?_, ih hrest hnodup hb'⟩
    · have hne : a ≠ r.prev x := by
        rintro rfl
        have hmem := hfirst.prev_mem
        rw [mem_append, mem_singleton] at hmem
        rcases hmem with hin | heq
        · exact ha (mem_cons_of_mem y (mem_append_left _ hin))
        · exact ha (heq ▸ mem_cons_self)
      rw [unlink_next hx, update_of_ne hne]
      exact hay
    · have hne : y ≠ r.next x := by
        rintro rfl
        have hmem := hsecond.next_mem
        rw [mem_append, mem_singleton] at hmem
        rcases hmem with hin | heq
        · exact (nodup_cons.mp hnodup).1 (mem_append_right _ (mem_cons_of_mem x hin))
        · exact hb (heq ▸ mem_cons_self)
      rw [unlink_prev, update_of_ne hne]
      exact hya

theorem IsRing.unlink (h : r.IsRing head (l1 ++ x :: l2)) :
    (r.unlink x).IsRing head (l1 ++ l2) := by
  refine ⟨h.nodup.sublist ?_, h.chain.unlink h.nodup (nodup_cons.mp h.nodup).1⟩
  exact ((List.Sublist.refl l1).append (sublist_cons_self x l2)).cons_cons head

/-- After the insertion the new node comes first. -/
theorem IsRing.insertAfter (h : r.IsRing head l) (hx : x ∉ head :: l) :
    (r.insertAfter head x).IsRing head (x :: l) := by
  obtain ⟨hne, hout⟩ := not_or.mp (mem_cons.not.mp hx)
  obtain ⟨hhead, hl⟩ := nodup_cons.mp h.nodup
  refine ⟨?_, ?_⟩
  · refine nodup_cons.mpr ⟨?_, nodup_cons.mpr ⟨hout, hl⟩⟩
    rintro (_ | ⟨_, hin⟩)
    · exact hne rfl
    · exact hhead hin
  have hnext : (r.insertAfter head x).next = update (update r.next x (r.next head)) head x := rfl
  have hprev : (r.insertAfter head x).prev = update (update r.prev x head) (r.next head) x := by
    simp only [Links.insertAfter, setNext, setPrev, update_of_ne (Ne.symm hne)]
  have hfirst : r.next head ≠ x := by
    rintro rfl
    have hmem := h.chain.next_mem
    rw [mem_append, mem_singleton] at hmem
    exact hmem.elim hout hne
  have hstart : (r.insertAfter head x).next head = x ∧ (r.insertAfter head x).prev x = head ∧
      (r.insertAfter head x).next x = r.next head ∧
      (r.insertAfter head x).prev (r.next head) = x := by
    rw [hnext, hprev, update_self, update_of_ne hfirst.symm,
      update_self, update_of_ne hne, update_self, update_self]
    exact ⟨rfl, rfl, rfl, rfl⟩
  refine ⟨hstart.1, hstart.2.1, ?_⟩
  have hchain := h.chain
  cases l with
  | nil =>
    obtain ⟨hheadnext, -⟩ := hchain
    rw [hheadnext] at hstart
    exact ⟨hstart.2.2.1, hstart.2.2.2⟩
  | cons y l =>
    obtain ⟨hy, -, hrest⟩ := hchain
    rw [hy] at hstart hprev
    refine ⟨hstart.2.2.1, hstart.2.2.2, hrest.congr (fun z hz => ?_) fun z hz => ?_⟩
    · have hzx : z ≠ x := fun heq => hout (heq ▸ hz)
      have hzhead : z ≠ head := fun heq => hhead (heq ▸ hz)
      rw [hnext, update_of_ne hzhead, update_of_ne hzx]
    · have hzy : z ≠ y := by
        rintro rfl
        rcases mem_append.mp hz with hin | hin
        · exact (nodup_cons.mp hl).1 hin
        · exact hhead (mem_singleton.mp hin ▸ mem_cons_self)
      have hzx : z ≠ x := by
        rintro rfl
        rcases mem_append.mp hz with hin | hin
        · exact hout (mem_cons_of_mem y hin)
        · exact hne (mem_singleton.mp hin)
      rw [hprev, update_of_ne hzy, update_of_ne hzx]

/-- A node linked to itself is a ring without further nodes. -/
theorem isRing_nil (r : Links α) (head : α) :
    ((r.setPrev head head).setNext head head).IsRing head [] :=
  ⟨nodup_singleton head, update_self .., update_self ..⟩

/-- Nodes put in one after the other end up in the opposite order. -/
theorem IsRing.foldl_insertAfter (h : r.IsRing head l) {xs : List α} (hxs : xs.Nodup)
    (hout : ∀ x ∈ xs, x ∉ head :: l) :
    (xs.foldl (fun r x => r.insertAfter head x) r).IsRing head (xs.reverse ++ l) := by
  induction xs generalizing r l with
  | nil => exact h
  | cons x xs ih =>
    obtain ⟨hx, hnodup⟩ := nodup_cons.mp hxs
    rw [reverse_cons, append_assoc]
    refine ih (h.insertAfter (hout x mem_cons_self)) hnodup fun y hy => ?_
    have hyout := hout y (mem_cons_of_mem x hy)
    have hyx : y ≠ x := fun heq => hx (heq ▸ hy)
    simp only [mem_cons, singleton_append, not_or] at hyout ⊢
    exact ⟨hyout.1, hyx, hyout.2⟩

/-- Moving a node to the front. -/
theorem IsRing.toFront (h : r.IsRing head l) (hx : x ∈ l) :
    ((r.unlink x).insertAfter head x).IsRing head (x :: l.erase x) := by
  obtain ⟨l1, l2, rfl⟩ := append_of_mem hx
  have hnodup := h.nodup
  have hx1 : x ∉ l1 := by
    intro hin
    have hdisjoint := (nodup_append'.mp (nodup_cons.mp hnodup).2).2.2
    exact hdisjoint hin mem_cons_self
  rw [erase_append_right _ hx1, erase_cons_head]
  refine h.unlink.insertAfter ?_
  have hperm : (head :: (l1 ++ x :: l2)).Perm (x :: head :: (l1 ++ l2)) :=
    (perm_middle.cons head).trans (List.Perm.swap x head _)
  exact (nodup_cons.mp (hperm.nodup_iff.mp hnodup)).1

/-! ## Searching -/

/-- The loop `for (x = first; x != head; x = step(x))` that stops at the first node with
`test`.  `none` when the bound on the number of rounds is used up. -/
def search (step : α → α) (head : α) (test : α → Bool) : Nat → α → Option (Option α)
  | 0, _ => none
  | fuel + 1, x =>
    if x = head then some none
    else if test x then some (some x)
    else search step head test fuel (step x)

theorem Chain.search {test : α → Bool} (h : r.Chain a l head) (hhead : head ∉ l) {fuel : Nat}
    (hfuel : l.length < fuel) :
    Links.search r.next head test fuel (r.next a) = some (l.find? test) := by
  induction l generalizing a fuel with
  | nil =>
    obtain ⟨fuel, rfl⟩ := Nat.exists_eq_add_one.mpr hfuel
    rw [Links.search, if_pos h.1, find?_nil]
  | cons y l ih =>
    obtain ⟨fuel, rfl⟩ := Nat.exists_eq_add_one.mpr (Nat.zero_lt_of_lt hfuel)
    obtain ⟨hay, -, hrest⟩ := h
    have hy : y ≠ head := fun heq => hhead (heq ▸ mem_cons_self)
    rw [hay, Links.search, if_neg hy, find?_cons]
    cases htest : test y with
    | true => rfl
    | false =>
      rw [if_neg Bool.false_ne_true]
      refine ih hrest (fun hin => hhead (mem_cons_of_mem y hin)) ?_
      rw [length_cons] at hfuel
      omega

/-- From the head forwards. -/
theorem IsRing.search_next {test : α → Bool} (h : r.IsRing head l) {fuel : Nat}
    (hfuel : l.length < fuel) :
    Links.search r.next head test fuel (r.next head) = some (l.find? test) :=
  h.chain.search (nodup_cons.mp h.nodup).1 hfuel

/-- From the head backwards. -/
theorem IsRing.search_prev {test : α → Bool} (h : r.IsRing head l) {fuel : Nat}
    (hfuel : l.length < fuel) :
    Links.search r.prev head test fuel (r.prev head) = some (l.reverse.find? test) :=
  h.flip.search_next (by rwa [length_reverse])

end Links

end LinkedRing
