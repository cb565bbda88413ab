/-
The invariant of the allocator: the free list is a ring in address order from `base`, with gaps
between its blocks, and the free and the live blocks are the memory from `sbrk`.  `free`,
`morecore` and `malloc` keep it while all of that memory is less than 2^32 units.
-/
import EAFITos.Umalloc

namespace EAFITos.Umalloc

open Extents LinkedPath Function List

variable {y : Nat} {mem2 : Nat → Header}

variable {ptr size : Nat} {live' : List Extent}

/-- The successor of a block in the free list. -/
abbrev nextOf (mem : Nat → Header) (p : Nat) : Nat := (mem p).ptr

/-- The headers of the free blocks, in the order of the list. -/
abbrev starts (free : List Extent) : List Nat := free.map Extent.start

/-- The invariant, with the free blocks in the order of the list. -/
structure Inv (base : Nat) (h : Heap) (free : List Extent) : Prop where
  ring : Path (nextOf h.mem) base (starts free) base
  entry : ∃ f ∈ base :: starts free, h.freep = some f
  baseSize : (h.mem base).size = 0
  sizes : ∀ b ∈ free ++ h.live, bytes (h.mem b.start).size = b.len
  pos : ∀ b ∈ free ++ h.live, 0 < b.len
  gaps : free.Pairwise fun a b => a.stop < b.start
  same : Same (free ++ h.live) h.core
  once : ∀ x, cover h.core x ≤ 1
  below : ∀ b ∈ h.core, base + 16 ≤ b.start
  small : total h.core < 2 ^ 36

namespace Inv

variable {base : Nat} {h : Heap} {free : List Extent} {a b : Extent}

section

variable (hinv : Inv base h free)
include hinv

theorem once' (x : Nat) : cover (free ++ h.live) x ≤ 1 := by
  rw [hinv.same.cover]
  exact hinv.once x

theorem apart (ha : a ∈ free ++ h.live) (hb : b ∈ free ++ h.live) (hne : a ≠ b) : a.Apart b :=
  apart_of_ne hinv.once' hinv.pos ha hb hne

theorem has_start (hb : b ∈ free ++ h.live) : b.Has b.start := by
  have hpos := hinv.pos b hb
  exact ⟨Nat.le_refl _, by rw [Extent.stop]; omega⟩

/-- Every block lies in memory from `sbrk`. -/
theorem exists_core (hb : b ∈ free ++ h.live) {x : Nat} (hx : b.Has x) : ∃ c ∈ h.core, c.Has x := by
  have hone := one_le_cover hb hx
  rw [hinv.same.cover] at hone
  exact exists_of_cover hone

theorem base_lt (hb : b ∈ free ++ h.live) : base + 16 ≤ b.start := by
  obtain ⟨c, hc, hx⟩ := hinv.exists_core hb (hinv.has_start hb)
  exact Nat.le_trans (hinv.below c hc) hx.1

theorem sorted : (base :: starts free).Pairwise (· < ·) := by
  refine pairwise_cons.mpr ⟨fun x hx => ?_, ?_⟩
  · obtain ⟨b, hb, rfl⟩ := mem_map.mp hx
    have hlt := hinv.base_lt (mem_append_left _ hb)
    omega
  · refine pairwise_map.mpr (hinv.gaps.imp fun {a b} hab => ?_)
    rw [Extent.stop] at hab
    omega

theorem nodup : (base :: starts free).Nodup := hinv.sorted.imp Nat.ne_of_lt

theorem length_le : (starts free).length ≤ total h.core := by
  have hle : ∀ es : List Extent, (∀ b ∈ es, 0 < b.len) → es.length ≤ total es := by
    intro es hes
    induction es with
    | nil => exact Nat.le_refl _
    | cons e es ih =>
      have he := hes e mem_cons_self
      have hrest := ih fun b hb => hes b (mem_cons_of_mem e hb)
      rw [length_cons, total_cons]
      omega
  have hall := hle _ hinv.pos
  rw [length_append, hinv.same.total] at hall
  rw [length_map]
  omega

theorem apart_live (ha : a ∈ free) (hb : b ∈ h.live) : a.Apart b :=
  (pairwise_append.mp (pairwise_apart hinv.once' hinv.pos)).2.2 a ha b hb

theorem split (hb : b ∈ h.live) :
    ∃ l1 l2, free = l1 ++ l2 ∧ (∀ a ∈ l1, a.stop ≤ b.start) ∧ ∀ a ∈ l2, b.stop ≤ a.start := by
  have hside : ∀ a ∈ free, a.Apart b := fun a ha => hinv.apart_live ha hb
  have hgaps := hinv.gaps
  clear hinv
  induction free with
  | nil => exact ⟨[], [], rfl, nofun, nofun⟩
  | cons a free ih =>
    obtain ⟨hafter, hrest⟩ := pairwise_cons.mp hgaps
    rcases hside a mem_cons_self with hbefore | hbehind
    · obtain ⟨l1, l2, rfl, h1, h2⟩ := ih (fun c hc => hside c (mem_cons_of_mem a hc)) hrest
      exact ⟨a :: l1, l2, rfl, forall_mem_cons.mpr ⟨hbefore, h1⟩, h2⟩
    · refine ⟨[], a :: free, rfl, nofun, forall_mem_cons.mpr ⟨hbehind, fun c hc => ?_⟩⟩
      have hlt := hafter c hc
      rw [Extent.stop] at hlt
      omega

end

/-! ## The search of `free` -/

/-- The block before `bp` in the list. -/
def before (base : Nat) (l1 : List Extent) : Nat := (starts l1).getLastD base

theorem before_mem (base : Nat) (l1 : List Extent) : before base l1 ∈ base :: starts l1 :=
  getLastD_mem _ _

theorem before_lt {l1 : List Extent} {bp : Nat} (hbase : base < bp)
    (h1 : ∀ a ∈ l1, a.start < bp) : before base l1 < bp := by
  rcases mem_cons.mp (before_mem base l1) with heq | hmem
  · rwa [heq]
  · obtain ⟨a, ha, heq⟩ := mem_map.mp hmem
    rw [← heq]
    exact h1 a ha

/-- Where the loop of `free` ends. -/
theorem stops_iff (hinv : Inv base h free) {bp : Nat} (hbase : base < bp)
    (hy : y ∈ base :: starts free) :
    Heap.stops h.mem bp y ↔ y < bp ∧ ∀ z ∈ base :: starts free, z ≤ y ∨ bp < z := by
  have hcases := hinv.ring.next_cases hinv.sorted hy
  have hbasele : base ≤ y := by
    rcases mem_cons.mp hy with rfl | hmem
    · exact Nat.le_refl _
    · exact Nat.le_of_lt ((pairwise_cons.mp hinv.sorted).1 y hmem)
  simp only [Heap.stops, Bool.or_eq_true, Bool.and_eq_true, decide_eq_true_eq]
  rcases hcases with ⟨hnext, hlast⟩ | ⟨hlt, hmem, hbetween⟩
  · have hptr : (h.mem y).ptr = base := hnext
    rw [hptr]
    constructor
    · intro hstop
      exact ⟨by omega, fun z hz => .inl (hlast z hz)⟩
    · rintro ⟨hbp, -⟩
      exact .inr ⟨hbasele, .inl hbp⟩
  · change y < (h.mem y).ptr at hlt
    change (h.mem y).ptr ∈ starts free at hmem
    change ∀ z ∈ base :: starts free, z ≤ y ∨ (h.mem y).ptr ≤ z at hbetween
    constructor
    · intro hstop
      refine ⟨by omega, fun z hz => ?_⟩
      rcases hbetween z hz with hle | hle
      · exact .inl hle
      · exact .inr (by omega)
    · rintro ⟨hbp, hall⟩
      have hbehind := hall _ (mem_cons_of_mem base hmem)
      exact .inl ⟨hbp, by omega⟩

/-- The loop ends at the block before the one to be freed. -/
theorem follow_before (hinv : Inv base h free) (hb : b ∈ h.live) {l1 l2 : List Extent}
    (hfree : free = l1 ++ l2) (h1 : ∀ a ∈ l1, a.stop ≤ b.start) (h2 : ∀ a ∈ l2, b.stop ≤ a.start)
    {f : Nat} (hf : f ∈ base :: starts free) :
    follow (nextOf h.mem) (Heap.stops h.mem b.start) h.rounds f = some (before base l1) := by
  have hbase : base < b.start := by
    have hlt := hinv.base_lt (mem_append_right _ hb)
    omega
  have hlen := hinv.pos b (mem_append_right _ hb)
  have hlt1 : ∀ a ∈ l1, a.start < b.start := by
    intro a ha
    have hstop := h1 a ha
    have hapos := hinv.pos a (mem_append_left _ (hfree ▸ mem_append_left _ ha))
    rw [Extent.stop] at hstop
    omega
  have hlt2 : ∀ a ∈ l2, b.start < a.start := by
    intro a ha
    have hstop := h2 a ha
    rw [Extent.stop] at hstop
    omega
  have hmem : before base l1 ∈ base :: starts free := by
    rcases mem_cons.mp (before_mem base l1) with heq | hin
    · rw [heq]
      exact mem_cons_self
    · rw [hfree, starts, map_append]
      exact mem_cons_of_mem base (mem_append_left _ hin)
  obtain ⟨l', hpath, hperm⟩ := hinv.ring.exists_rotate hf
  have hlength : l'.length < h.rounds := by
    have hle := hinv.length_le
    have heq := hperm.length_eq
    rw [length_cons, length_cons] at heq
    rw [Heap.rounds]
    omega
  have hsplit : ∀ z ∈ base :: starts free, z ≤ before base l1 ∨ b.start < z := by
    intro z hz
    have hsorted : (base :: starts l1).Pairwise (· < ·) := by
      refine hinv.sorted.sublist (List.Sublist.cons_cons base ?_)
      rw [hfree]
      exact (sublist_append_left l1 l2).map Extent.start
    rw [hfree, starts, map_append, ← cons_append, mem_append] at hz
    rcases hz with hz | hz
    · exact .inl (le_getLastD hsorted z hz)
    · obtain ⟨a, ha, rfl⟩ := mem_map.mp hz
      exact .inr (hlt2 a ha)
  have hbefore := before_lt hbase hlt1
  refine hpath.follow (hperm.mem_iff.mpr hmem) ?_ (fun y hy hstop => ?_) hlength
  · rw [hinv.stops_iff hbase hmem]
    exact ⟨hbefore, hsplit⟩
  · have hy' := hperm.mem_iff.mp hy
    obtain ⟨hybp, hyall⟩ := (hinv.stops_iff hbase hy').mp hstop
    have hle := hsplit y hy'
    have hge := hyall _ hmem
    omega

end Inv

/-! ## The joining of `free` -/

variable {mem : Nat → Header} {base p bp : Nat} {b : Extent} {l1 l2 : List Extent}

theorem setPtr_of_ne (hy : y ≠ p) : setPtr mem p ptr y = mem y := update_of_ne hy _ _

@[simp] theorem setPtr_self : setPtr mem p ptr p = { mem p with ptr } := update_self ..

theorem setSize_of_ne (hy : y ≠ p) : setSize mem p size y = mem y :=
  update_of_ne hy _ _

@[simp] theorem setSize_self :
    setSize mem p size p = { mem p with size := size % 2 ^ 32 } := update_self ..

/-- The sizes of two blocks add up without overflow. -/
theorem bytes_add {m n : Nat} (h : bytes m + bytes n < 2 ^ 36) :
    bytes ((m + n) % 2 ^ 32) = bytes m + bytes n := by
  simp only [bytes] at *
  omega

/-- What the first step of `free` leads to: a block at `b.start` with the blocks `l2` behind it. -/
structure Joined (mem mem' : Nat → Header) (base : Nat) (b : Extent) (l : List Extent)
    (b' : Extent) (l' : List Extent) : Prop where
  other : ∀ y, y ≠ b.start → mem' y = mem y
  start : b'.start = b.start
  len : b.len ≤ b'.len
  size : bytes (mem' b.start).size = b'.len
  path : Path (nextOf mem') b.start (starts l') base
  same : Same (b :: l) (b' :: l')
  gap : ∀ a ∈ l', b'.stop < a.start
  sublist : l'.Sublist l

theorem joined_next (hpath : Path (nextOf mem) p (starts l2) base) (hp : p ≠ b.start)
    (hbase : base < b.start) (hsize : bytes (mem b.start).size = b.len)
    (hsizes : ∀ a ∈ l2, bytes (mem a.start).size = a.len) (hbehind : ∀ a ∈ l2, b.stop ≤ a.start)
    (hgaps : l2.Pairwise fun a b => a.stop < b.start) (hpos : ∀ a ∈ b :: l2, 0 < a.len)
    (hsmall : b.len + total l2 < 2 ^ 36) :
    ∃ b' l', Joined mem (Heap.joinNext mem p b.start) base b l2 b' l' := by
  have hblen := hpos b mem_cons_self
  have hout : ∀ a ∈ l2, a.start ≠ b.start := by
    intro a ha heq
    have hle := hbehind a ha
    rw [Extent.stop] at hle
    omega
  -- nothing to join: `b` points to what `p` pointed to
  have hkeep : b.stop ≠ nextOf mem p → (∀ a ∈ l2, b.stop < a.start) →
      ∃ b' l', Joined mem (Heap.joinNext mem p b.start) base b l2 b' l' := by
    intro hne hgap
    have hcond : ¬ b.start + bytes (mem b.start).size = (mem p).ptr := by
      rw [hsize]
      exact hne
    rw [Heap.joinNext, if_neg hcond]
    refine ⟨b, l2, fun y hy => setPtr_of_ne hy, rfl, Nat.le_refl _, ?_, ?_, Same.refl _, hgap,
      List.Sublist.refl _⟩
    · rw [setPtr_self]
      exact hsize
    · refine hpath.of_next_eq ?_ fun z hz => ?_
      · rw [nextOf, setPtr_self]
      · obtain ⟨a, ha, rfl⟩ := mem_map.mp hz
        rw [nextOf, setPtr_of_ne (hout a ha)]
  cases l2 with
  | nil =>
    refine hkeep (fun heq => ?_) (by rintro _ ⟨⟩)
    have hnext : nextOf mem p = base := hpath
    rw [hnext, Extent.stop] at heq
    omega
  | cons q l2 =>
    have hnext : nextOf mem p = q.start := hpath.1
    have hqle := hbehind q mem_cons_self
    obtain ⟨hqgap, hrest⟩ := pairwise_cons.mp hgaps
    by_cases hjoin : b.stop = q.start
    · have hcond : b.start + bytes (mem b.start).size = (mem p).ptr := by
        rw [hsize]
        exact hjoin.trans hnext.symm
      have hptr : (mem p).ptr = q.start := hnext
      have hqsize := hsizes q mem_cons_self
      have hqne : q.start ≠ b.start := hout q mem_cons_self
      have hsum : bytes (((mem b.start).size + (mem q.start).size) % 2 ^ 32) = b.len + q.len := by
        rw [total_cons] at hsmall
        rw [bytes_add (by omega), hsize, hqsize]
      rw [Heap.joinNext, if_pos hcond]
      dsimp only
      rw [setSize_of_ne hp, hptr, setSize_of_ne hqne]
      refine ⟨⟨b.start, b.len + q.len⟩, l2, fun y hy => ?_, rfl, Nat.le_add_right _ _, ?_, ?_,
        Same.join b q l2 hjoin, fun a ha => ?_, sublist_cons_self _ _⟩
      · rw [setPtr_of_ne hy, setSize_of_ne hy]
      · rw [setPtr_self, setSize_self]
        exact hsum
      · refine hpath.2.of_next_eq ?_ fun z hz => ?_
        · rw [nextOf, setPtr_self]
        · obtain ⟨a, ha, rfl⟩ := mem_map.mp hz
          have hne := hout a (mem_cons_of_mem q ha)
          rw [nextOf, setPtr_of_ne hne, setSize_of_ne hne]
      · have hlt := hqgap a ha
        simp only [Extent.stop] at hlt hjoin ⊢
        omega
    · refine hkeep (fun heq => hjoin (heq.trans hnext)) ?_
      refine forall_mem_cons.mpr ⟨Nat.lt_of_le_of_ne hqle hjoin, fun a ha => ?_⟩
      have hlt := hqgap a ha
      rw [Extent.stop] at hlt
      omega

/-- A free list in memory. -/
structure Listed (mem : Nat → Header) (base : Nat) (free : List Extent) : Prop where
  ring : Path (nextOf mem) base (starts free) base
  baseSize : (mem base).size = 0
  sizes : ∀ a ∈ free, bytes (mem a.start).size = a.len
  gaps : free.Pairwise fun a b => a.stop < b.start

theorem before_concat (base : Nat) (l : List Extent) (a : Extent) :
    Inv.before base (l ++ [a]) = a.start := by
  rw [Inv.before, starts, map_append, map_singleton, getLastD_concat]

/-- What the second step of `free` needs to know. -/
structure Placing (mem mem1 : Nat → Header) (base : Nat) (b : Extent) (l1 l2 : List Extent)
    (b' : Extent) (l' : List Extent) : Prop where
  list : Listed mem base (l1 ++ l2)
  join : Joined mem mem1 base b l2 b' l'
  nodup : (base :: starts l1).Nodup
  base_lt : base < b.start
  before_le : ∀ a ∈ l1, a.stop ≤ b.start
  behind : ∀ a ∈ l2, b.stop ≤ a.start
  pos : ∀ a ∈ b :: (l1 ++ l2), 0 < a.len
  small : total l1 + b'.len < 2 ^ 36

namespace Placing

variable {mem1 : Nat → Header} {b' : Extent} {l' : List Extent}

section

variable (h : Placing mem mem1 base b l1 l2 b' l')
include h

theorem start_lt : ∀ y ∈ base :: starts l1, y < b.start := by
  refine forall_mem_cons.mpr ⟨h.base_lt, fun y hy => ?_⟩
  obtain ⟨a, ha, rfl⟩ := mem_map.mp hy
  have hstop := h.before_le a ha
  have hapos := h.pos a (mem_cons_of_mem b (mem_append_left _ ha))
  rw [Extent.stop] at hstop
  omega

theorem lt_start : ∀ y ∈ starts l', b.start < y := by
  intro y hy
  obtain ⟨a, ha, rfl⟩ := mem_map.mp hy
  have hle := h.behind a (h.join.sublist.subset ha)
  have hbpos := h.pos b mem_cons_self
  rw [Extent.stop] at hle
  omega

theorem before_lt : Inv.before base l1 < b.start := h.start_lt _ (Inv.before_mem base l1)

section

variable (hmem2 : ∀ y, y ≠ Inv.before base l1 → mem2 y = mem1 y)
include hmem2

/-- The ring with another tail behind `l1`. -/
theorem ring {l : List Nat} (htail : Path (nextOf mem2) (Inv.before base l1) l base) :
    Path (nextOf mem2) base (starts l1 ++ l) base := by
  have hring := h.list.ring
  rw [starts, map_append] at hring
  refine hring.splice h.nodup htail fun y hy hne => ?_
  have hyb := h.start_lt y hy
  rw [nextOf, hmem2 y hne, h.join.other y (Nat.ne_of_lt hyb)]

/-- The tail of the block, also for a node that takes over its pointer. -/
theorem tail (hy : nextOf mem2 y = nextOf mem1 b.start) :
    Path (nextOf mem2) y (starts l') base := by
  refine h.join.path.of_next_eq hy fun z hz => ?_
  have hlt := h.lt_start z hz
  have hplt := h.before_lt
  rw [nextOf, hmem2 z (by omega)]

/-- The sizes of the blocks that stay as they were. -/
theorem sizes {a : Extent} (ha : a ∈ l1 ++ l') (hne : a.start ≠ Inv.before base l1) :
    bytes (mem2 a.start).size = a.len := by
  have hab : a.start ≠ b.start := by
    rcases mem_append.mp ha with ha | ha
    · exact Nat.ne_of_lt (h.start_lt _ (mem_cons_of_mem base (mem_map_of_mem ha)))
    · exact Nat.ne_of_gt (h.lt_start _ (mem_map_of_mem ha))
  have hmem : a ∈ l1 ++ l2 := by
    rcases mem_append.mp ha with ha | ha
    · exact mem_append_left _ ha
    · exact mem_append_right _ (h.join.sublist.subset ha)
  rw [hmem2 _ hne, h.join.other _ hab]
  exact h.list.sizes a hmem

/-- Other headers stay as they were. -/
theorem other (hyb : y ≠ b.start) (hy : y ∉ base :: starts l1) : mem2 y = mem y := by
  rw [hmem2 y fun heq => hy (heq ▸ Inv.before_mem base l1), h.join.other y hyb]

end

theorem gaps_left : l1.Pairwise fun a b => a.stop < b.start :=
  h.list.gaps.sublist (sublist_append_left _ _)

theorem gaps_right : l'.Pairwise fun a b => a.stop < b.start :=
  (h.list.gaps.sublist (sublist_append_right _ _)).sublist h.join.sublist

theorem same : Same (b :: (l1 ++ l2)) (l1 ++ b' :: l') := by
  have hfirst : Same (b :: (l1 ++ l2)) (l1 ++ b :: l2) := .of_perm perm_middle.symm
  exact hfirst.trans (h.join.same.append_left l1)

end

end Placing

/-- The free list after a block was put into it. -/
structure Freed (mem mem2 : Nat → Header) (base : Nat) (b : Extent) (l1 l2 free' : List Extent) :
    Prop where
  list : Listed mem2 base free'
  same : Same (b :: (l1 ++ l2)) free'
  entry : Inv.before base l1 ∈ base :: starts free'
  pos : ∀ a ∈ free', 0 < a.len
  large : ∃ c ∈ free', b.len ≤ c.len
  other : ∀ y, y ≠ b.start → y ∉ base :: starts l1 → mem2 y = mem y

namespace Placing

variable {mem1 : Nat → Header} {b' : Extent} {l' : List Extent}

section

variable (h : Placing mem mem1 base b l1 l2 b' l')
include h

theorem pos' {a : Extent} (ha : a ∈ l1 ++ l') : 0 < a.len := by
  refine h.pos a (mem_cons_of_mem b ?_)
  rcases mem_append.mp ha with ha | ha
  · exact mem_append_left _ ha
  · exact mem_append_right _ (h.join.sublist.subset ha)

theorem b'_pos : 0 < b'.len := Nat.lt_of_lt_of_le (h.pos b mem_cons_self) h.join.len

/-- The block does not touch the one before it. -/
theorem freed_apart (hgap : ∀ a ∈ l1, a.stop < b.start) :
    Freed mem (setPtr mem1 (Inv.before base l1) b.start) base b l1 l2 (l1 ++ b' :: l') := by
  have hmem2 : ∀ y, y ≠ Inv.before base l1 →
      setPtr mem1 (Inv.before base l1) b.start y = mem1 y := fun y hy => setPtr_of_ne hy
  have hblt := h.before_lt
  have hbne : b.start ≠ Inv.before base l1 := Nat.ne_of_gt hblt
  have hstart := h.join.start
  have hsize : ∀ y ∈ base :: starts l1,
      (setPtr mem1 (Inv.before base l1) b.start y).size = (mem y).size := by
    intro y hy
    have hyb := h.start_lt y hy
    by_cases hyp : y = Inv.before base l1
    · rw [hyp, setPtr_self]
      rw [h.join.other _ (Nat.ne_of_lt hblt)]
    · rw [hmem2 y hyp, h.join.other y (Nat.ne_of_lt hyb)]
  refine ⟨⟨?_, ?_, ?_, ?_⟩, h.same, ?_, ?_, ?_, fun y => h.other hmem2⟩
  · rw [starts, map_append, map_cons, hstart]
    refine h.ring hmem2 ⟨?_, h.tail hmem2 ?_⟩
    · rw [nextOf, setPtr_self]
    · rw [nextOf, hmem2 _ hbne]
  · rw [hsize base mem_cons_self]
    exact h.list.baseSize
  · intro a ha
    rcases mem_append.mp ha with ha | ha
    · rw [hsize _ (mem_cons_of_mem base (mem_map_of_mem ha))]
      exact h.list.sizes a (mem_append_left _ ha)
    · rcases mem_cons.mp ha with rfl | ha
      · rw [hstart, hmem2 _ hbne]
        exact h.join.size
      · have hlt := h.lt_start _ (mem_map_of_mem ha)
        exact h.sizes hmem2 (mem_append_right _ ha) (by omega)
  · refine pairwise_append.mpr ⟨h.gaps_left, pairwise_cons.mpr ⟨h.join.gap, h.gaps_right⟩,
      fun a ha c hc => ?_⟩
    have hlt := hgap a ha
    rcases mem_cons.mp hc with rfl | hc
    · rwa [hstart]
    · have hclt := h.lt_start _ (mem_map_of_mem hc)
      omega
  · rcases mem_cons.mp (Inv.before_mem base l1) with heq | hmem
    · rw [heq]
      exact mem_cons_self
    · rw [starts, map_append]
      exact mem_cons_of_mem base (mem_append_left _ hmem)
  · intro a ha
    rw [mem_append, mem_cons] at ha
    rcases ha with ha | rfl | ha
    · exact h.pos' (mem_append_left _ ha)
    · exact h.b'_pos
    · exact h.pos' (mem_append_right _ ha)
  · exact ⟨b', mem_append_right _ mem_cons_self, h.join.len⟩

end

/-- The block joins the one before it. -/
theorem freed_joined {l : List Extent} {a : Extent}
    (h : Placing mem mem1 base b (l ++ [a]) l2 b' l') (hjoin : a.stop = b.start) :
    Freed mem (setPtr (setSize mem1 a.start ((mem1 a.start).size + (mem1 b.start).size)) a.start
      (mem1 b.start).ptr) base b (l ++ [a]) l2 (l ++ ⟨a.start, a.len + b'.len⟩ :: l') := by
  generalize hmem2def : setPtr (setSize mem1 a.start ((mem1 a.start).size + (mem1 b.start).size))
    a.start (mem1 b.start).ptr = mem2
  have hbefore : Inv.before base (l ++ [a]) = a.start := before_concat base l a
  have hmem2 : ∀ y, y ≠ Inv.before base (l ++ [a]) → mem2 y = mem1 y := by
    intro y hy
    rw [hbefore] at hy
    rw [← hmem2def, setPtr_of_ne hy, setSize_of_ne hy]
  have hself : mem2 a.start = ⟨(mem1 b.start).ptr,
      ((mem1 a.start).size + (mem1 b.start).size) % 2 ^ 32⟩ := by
    rw [← hmem2def, setPtr_self, setSize_self]
  have hmema : a ∈ l ++ [a] := mem_append_right _ mem_cons_self
  have halt := h.start_lt _ (mem_cons_of_mem base (mem_map_of_mem hmema))
  have hasize : bytes (mem1 a.start).size = a.len := by
    rw [h.join.other _ (Nat.ne_of_lt halt)]
    exact h.list.sizes a (mem_append_left _ hmema)
  have hsum : bytes (mem2 a.start).size = a.len + b'.len := by
    have hsmall := h.small
    rw [total_append, total_cons] at hsmall
    rw [hself, bytes_add (by rw [hasize, h.join.size]; omega), hasize, h.join.size]
  have hnodup := h.nodup
  rw [starts, map_append, map_singleton, ← cons_append, nodup_append'] at hnodup
  have hne : ∀ y ∈ base :: starts l, y ≠ a.start := fun y hy heq =>
    hnodup.2.2 hy (heq ▸ mem_singleton_self _)
  have hgapl := pairwise_append.mp h.gaps_left
  refine ⟨⟨?_, ?_, ?_, ?_⟩, ?_, ?_, ?_, ?_, fun y => h.other hmem2⟩
  · have hring := h.ring hmem2 (h.tail hmem2 (y := Inv.before base (l ++ [a])) ?_)
    · rw [starts, map_append, append_assoc] at hring
      rw [starts, map_append]
      exact hring
    · rw [nextOf, hbefore, hself]
  · rw [hmem2 base (hbefore ▸ hne base mem_cons_self), h.join.other base (Nat.ne_of_lt h.base_lt)]
    exact h.list.baseSize
  · intro c hc
    rw [mem_append, mem_cons] at hc
    rcases hc with hc | rfl | hc
    · have hcne := hne _ (mem_cons_of_mem base (mem_map_of_mem hc))
      exact h.sizes hmem2 (mem_append_left _ (mem_append_left _ hc)) (hbefore ▸ hcne)
    · exact hsum
    · have hlt := h.lt_start _ (mem_map_of_mem hc)
      exact h.sizes hmem2 (mem_append_right _ hc) (by rw [hbefore]; omega)
  · refine pairwise_append.mpr ⟨hgapl.1, pairwise_cons.mpr ⟨fun c hc => ?_, h.gaps_right⟩,
      fun c hc d hd => ?_⟩
    · have hgap := h.join.gap c hc
      have hstart := h.join.start
      simp only [Extent.stop] at hgap hjoin ⊢
      omega
    · have hlt := hgapl.2.2 c hc a (mem_singleton_self a)
      rcases mem_cons.mp hd with rfl | hd
      · exact hlt
      · have hdlt := h.lt_start _ (mem_map_of_mem hd)
        omega
  · refine h.same.trans ?_
    rw [append_assoc]
    refine Same.append_left l ?_
    exact Same.join a b' l' (hjoin.trans h.join.start.symm)
  · rw [hbefore, starts, map_append]
    exact mem_cons_of_mem base (mem_append_right _ mem_cons_self)
  · intro c hc
    rw [mem_append, mem_cons] at hc
    rcases hc with hc | rfl | hc
    · exact h.pos' (mem_append_left _ (mem_append_left _ hc))
    · exact Nat.lt_of_lt_of_le h.b'_pos (Nat.le_add_left _ _)
    · exact h.pos' (mem_append_right _ hc)
  · refine ⟨_, mem_append_right _ mem_cons_self, ?_⟩
    have hlen := h.join.len
    dsimp only
    omega

/-- The second step of `free`. -/
theorem freed (h : Placing mem mem1 base b l1 l2 b' l') :
    ∃ free', Freed mem (Heap.joinPrev mem1 (Inv.before base l1) b.start) base b l1 l2 free' := by
  have hblt := h.before_lt
  rw [Heap.joinPrev]
  rcases eq_nil_or_concat l1 with rfl | ⟨l, a, rfl⟩
  · have hcond : ¬ Inv.before base [] + bytes (mem1 (Inv.before base [])).size = b.start := by
      change ¬ base + bytes (mem1 base).size = b.start
      have hlt := h.base_lt
      rw [h.join.other base (Nat.ne_of_lt hlt), h.list.baseSize, bytes]
      omega
    rw [if_neg hcond]
    exact ⟨_, h.freed_apart nofun⟩
  · rw [concat_eq_append] at h hblt ⊢
    have hmema : a ∈ l ++ [a] := mem_append_right _ mem_cons_self
    have halt := h.start_lt _ (mem_cons_of_mem base (mem_map_of_mem hmema))
    have hasize : bytes (mem1 a.start).size = a.len := by
      rw [h.join.other _ (Nat.ne_of_lt halt)]
      exact h.list.sizes a (mem_append_left _ hmema)
    rw [before_concat, hasize]
    by_cases hjoin : a.start + a.len = b.start
    · rw [if_pos hjoin]
      dsimp only
      rw [setSize_of_ne (Nat.ne_of_gt halt)]
      exact ⟨_, h.freed_joined hjoin⟩
    · rw [if_neg hjoin]
      have hgapl := pairwise_append.mp h.gaps_left
      have hgap : ∀ c ∈ l ++ [a], c.stop < b.start := by
        intro c hc
        rcases mem_append.mp hc with hc | hc
        · have hlt := hgapl.2.2 c hc a (mem_singleton_self a)
          omega
        · rw [mem_singleton.mp hc]
          exact Nat.lt_of_le_of_ne (h.before_le a hmema) hjoin
      have hfreed := h.freed_apart hgap
      rw [before_concat] at hfreed
      exact ⟨_, hfreed⟩

end Placing

/-! ## `free` and `morecore` -/

namespace Inv

variable {h : Heap} {free : List Extent}

theorem listed (hinv : Inv base h free) : Listed h.mem base free :=
  ⟨hinv.ring, hinv.baseSize, fun a ha => hinv.sizes a (mem_append_left _ ha), hinv.gaps⟩

theorem live_ne (hinv : Inv base h free) (hlive : h.live.Perm (b :: live')) {c : Extent}
    (hc : c ∈ live') : c.start ≠ b.start := by
  have hpair := (pairwise_append.mp (pairwise_apart hinv.once' hinv.pos)).2.1
  have hapart := (pairwise_cons.mp (hpair.perm hlive fun h => Or.symm h)).1 c hc
  have hbpos := hinv.pos b (mem_append_right _ (hlive.mem_iff.mpr mem_cons_self))
  have hcpos := hinv.pos c (mem_append_right _ (hlive.mem_iff.mpr (mem_cons_of_mem b hc)))
  simp only [Extent.Apart, Extent.stop] at hapart
  omega

/-- `free` ends, and moves the block from the live ones to the free ones. -/
theorem after_free (hinv : Inv base h free) (hlive : h.live.Perm (b :: live')) :
    ∃ h' free', h.free b.start = some h' ∧ h'.live = h.live ∧ h'.core = h.core ∧
      Inv base { h' with live := live' } free' ∧ ∃ c ∈ free', b.len ≤ c.len := by
  have hb : b ∈ h.live := hlive.mem_iff.mpr mem_cons_self
  have hball := mem_append_right free hb
  have hlive' : ∀ c ∈ live', c ∈ h.live := fun c hc =>
    hlive.mem_iff.mpr (mem_cons_of_mem b hc)
  obtain ⟨l1, l2, rfl, h1, h2⟩ := hinv.split hb
  obtain ⟨f, hf, hfreep⟩ := hinv.entry
  have hfollow := hinv.follow_before hb rfl h1 h2 hf
  have hbase : base < b.start := by
    have hlt := hinv.base_lt hball
    omega
  have htotal : total l1 + total l2 + b.len + total live' = total h.core := by
    rw [← hinv.same.total, total_append, total_append, total_perm hlive, total_cons]
    omega
  have hsmall := hinv.small
  have hnodup : (base :: starts l1).Nodup :=
    hinv.nodup.sublist (((sublist_append_left l1 l2).map Extent.start).cons_cons base)
  have hpos : ∀ a ∈ b :: (l1 ++ l2), 0 < a.len :=
    forall_mem_cons.mpr ⟨hinv.pos b hball, fun a ha => hinv.pos a (mem_append_left _ ha)⟩
  have hring := hinv.ring
  rw [starts, map_append] at hring
  have hbefore : before base l1 < b.start := by
    refine before_lt hbase fun a ha => ?_
    have hstop := h1 a ha
    have hapos := hpos a (mem_cons_of_mem b (mem_append_left _ ha))
    rw [Extent.stop] at hstop
    omega
  obtain ⟨b', l', hjoin⟩ := joined_next hring.tail (Nat.ne_of_lt hbefore) hbase
    (hinv.sizes b hball) (fun a ha => hinv.listed.sizes a (mem_append_right _ ha)) h2
    (hinv.gaps.sublist (sublist_append_right _ _))
    (forall_mem_cons.mpr ⟨hinv.pos b hball, fun a ha =>
      hpos a (mem_cons_of_mem b (mem_append_right _ ha))⟩) (by omega)
  have hsum := hjoin.same.total
  rw [total_cons, total_cons] at hsum
  obtain ⟨free', hfreed⟩ := Placing.freed ⟨hinv.listed, hjoin, hnodup, hbase, h1, h2, hpos, by omega⟩
  let mem' := Heap.joinPrev (Heap.joinNext h.mem (before base l1) b.start) (before base l1) b.start
  refine ⟨{ h with mem := mem', freep := some (before base l1) }, free', ?_, rfl, rfl,
    ⟨hfreed.list.ring, ⟨_, hfreed.entry, rfl⟩, hfreed.list.baseSize, ?_, ?_, hfreed.list.gaps, ?_,
      hinv.once, hinv.below, hinv.small⟩, hfreed.large⟩
  · rw [Heap.free, hfreep]
    change (follow _ _ _ f >>= _) = _
    rw [hfollow]
    rfl
  · intro c hc
    rcases mem_append.mp hc with hc | hc
    · exact hfreed.list.sizes c hc
    · have hcall := mem_append_right (l1 ++ l2) (hlive' c hc)
      have hclt := hinv.base_lt hcall
      have hcout : c.start ∉ base :: starts l1 := by
        intro hin
        rcases mem_cons.mp hin with heq | hin
        · omega
        · obtain ⟨a, ha, heq⟩ := mem_map.mp hin
          have haall : a ∈ l1 ++ l2 := mem_append_left _ ha
          have hapart := hinv.apart_live haall (hlive' c hc)
          have hapos := hpos a (mem_cons_of_mem b haall)
          have hcpos := hinv.pos c hcall
          simp only [Extent.Apart, Extent.stop] at hapart
          omega
      have hother : mem' c.start = h.mem c.start := hfreed.other _ (hinv.live_ne hlive hc) hcout
      change bytes (mem' c.start).size = c.len
      rw [hother]
      exact hinv.sizes c hcall
  · intro c hc
    rcases mem_append.mp hc with hc | hc
    · exact hfreed.pos c hc
    · exact hinv.pos c (mem_append_right _ (hlive' c hc))
  · have hperm : ((b :: (l1 ++ l2)) ++ live').Perm (l1 ++ l2 ++ h.live) :=
      perm_middle.symm.trans (hlive.symm.append_left _)
    exact (hfreed.same.symm.append_right live').trans ((Same.of_perm hperm).trans hinv.same)

end Inv

end EAFITos.Umalloc
