/-
The calls of the allocator over whole runs.  While all memory from `sbrk` is less than 2^32 units,
the free list and the live blocks are arranged as they should be, and every call returns.  Beyond
that the size of a joined block overflows.
-/
import EAFITos.UmallocInv

namespace EAFITos.Umalloc

open Extents LinkedPath List Option

namespace Inv

variable {p nunits : Nat} {mem : Nat → Header}

variable {base : Nat} {h : Heap} {free : List Extent} {b : Extent}

variable {a : Extent} {top nu prevp nbytes : Nat} {l1 l2 : List Extent}
  {answers : List (Option Nat)} {e : HeapCall}

/-- The memory of `sbrk` begins behind everything the heap has. -/
theorem stop_le (hinv : Inv base h free) (htop : h.Above base top) (hb : b ∈ free ++ h.live) :
    b.stop ≤ top := by
  have hpos := hinv.pos b hb
  have hlast : b.Has (b.stop - 1) := by
    simp only [Extent.Has, Extent.stop]
    omega
  obtain ⟨c, hc, hx⟩ := hinv.exists_core hb hlast
  have hle := htop.2 c hc
  have hlt := hx.2
  omega

/-- Fresh memory as a block of its own. -/
theorem grow (hinv : Inv base h free) (hp : h.Above base p) (hnu : 0 < nu)
    (hsmall : total h.core + bytes nu < 2 ^ 36) :
    Inv base { h with
      mem := setSize h.mem p nu, live := ⟨p, bytes nu⟩ :: h.live, core := ⟨p, bytes nu⟩ :: h.core }
      free := by
  have hlen : 0 < bytes nu := by
    rw [bytes]
    omega
  have hnu' : nu % 2 ^ 32 = nu := by
    rw [bytes] at hsmall
    exact Nat.mod_eq_of_lt (by omega)
  have hbase : base ≠ p := by
    have hle := hp.1
    omega
  have hne : ∀ b ∈ free ++ h.live, b.start ≠ p := by
    intro b hb
    have hle := hinv.stop_le hp hb
    have hpos := hinv.pos b hb
    rw [Extent.stop] at hle
    omega
  have hperm : (free ++ ⟨p, bytes nu⟩ :: h.live).Perm (⟨p, bytes nu⟩ :: (free ++ h.live)) :=
    perm_middle
  refine ⟨?_, hinv.entry, ?_, ?_, ?_, hinv.gaps, ?_, fun x => ?_, ?_, ?_⟩
  · refine hinv.ring.congr fun y hy => ?_
    have hyp : y ≠ p := by
      rcases mem_cons.mp hy with rfl | hy
      · exact hbase
      · obtain ⟨a, ha, rfl⟩ := mem_map.mp hy
        exact hne a (mem_append_left _ ha)
    change (setSize h.mem p nu y).ptr = _
    rw [setSize_of_ne hyp]
  · dsimp only
    rw [setSize_of_ne hbase]
    exact hinv.baseSize
  · intro b hb
    rcases mem_cons.mp (hperm.mem_iff.mp hb) with rfl | hb
    · dsimp only
      rw [setSize_self, hnu']
    · dsimp only
      rw [setSize_of_ne (hne b hb)]
      exact hinv.sizes b hb
  · intro b hb
    rcases mem_cons.mp (hperm.mem_iff.mp hb) with rfl | hb
    · exact hlen
    · exact hinv.pos b hb
  · exact (Same.of_perm hperm).trans (hinv.same.cons _)
  · rw [cover_cons]
    split
    case isFalse => exact hinv.once x
    case isTrue hx =>
      have hzero : cover h.core x = 0 := by
        by_contra hne
        obtain ⟨c, hc, hcx⟩ := exists_of_cover (Nat.pos_of_ne_zero hne)
        have hle := hp.2 c hc
        have hlt := hcx.2
        have hge := hx.1
        dsimp only at hge
        omega
      omega
  · refine forall_mem_cons.mpr ⟨hp.1, hinv.below⟩
  · rw [total_cons]
    dsimp only
    omega

/-- `free` does not look at the record of live blocks. -/
theorem free_live (h : Heap) (live : List Extent) (bp : Nat) :
    ({ h with live } : Heap).free bp = (h.free bp).map fun h' => { h' with live } := by
  simp only [Heap.free, Heap.rounds]
  cases h.freep with
  | none => rfl
  | some f =>
    dsimp only [bind, Option.bind]
    cases follow (fun p => (h.mem p).ptr) (Heap.stops h.mem bp) (total h.core + 2) f <;> rfl

/-- `morecore` ends, and leaves a free block of the size it asked for. -/
theorem after_morecore (hinv : Inv base h free) (hp : h.Above base p) (hnu : 0 < nu)
    (hsmall : total h.core + bytes nu < 2 ^ 36) :
    ∃ h' free', h.morecore nu p = some h' ∧ h'.live = h.live ∧
      h'.core = ⟨p, bytes nu⟩ :: h.core ∧ Inv base h' free' ∧ ∃ c ∈ free', bytes nu ≤ c.len := by
  have hgrow := hinv.grow hp hnu hsmall
  obtain ⟨h', free', hfree, hlive, hcore, hinv', hlarge⟩ :=
    hgrow.after_free (List.Perm.refl (⟨p, bytes nu⟩ :: h.live))
  refine ⟨{ h' with live := h.live }, free', ?_, rfl, hcore, hinv', hlarge⟩
  have hforget := free_live { h with
    mem := setSize h.mem p nu, live := ⟨p, bytes nu⟩ :: h.live, core := ⟨p, bytes nu⟩ :: h.core }
    h.live p
  rw [hfree] at hforget
  exact hforget

/-! ## `malloc` -/

/-- The free block behind `prevp` in the list. -/
theorem split_next (hinv : Inv base h free) (hprev : prevp ∈ base :: starts free)
    (hne : nextOf h.mem prevp ≠ base) :
    ∃ l1 a l2, free = l1 ++ a :: l2 ∧ a.start = nextOf h.mem prevp ∧ before base l1 = prevp := by
  obtain ⟨m1, m2, hsplit, hlast⟩ := hinv.ring.split_at_next hprev rfl hne
  obtain ⟨l1, rest, rfl, rfl, hrest⟩ := map_eq_append_iff.mp hsplit
  obtain ⟨a, l2, rfl, ha, -⟩ := map_eq_cons_iff.mp hrest
  exact ⟨l1, a, l2, rfl, ha, hlast⟩

/-- What `malloc` hands out. -/
structure Taken (base : Nat) (h : Heap) (nunits p : Nat) (h' : Heap) : Prop where
  live : h'.live = h.live
  core : h'.core = h.core
  size : (h'.mem p).size = nunits
  inv : ∃ free', Inv base { h' with live := ⟨p, bytes nunits⟩ :: h.live } free'

theorem setPtr_size {ptr : Nat} (y : Nat) :
    (setPtr mem p ptr y).size = (mem y).size := by
  by_cases hy : y = p
  · rw [hy, setPtr_self]
  · rw [setPtr_of_ne hy]

theorem setSize_ptr {size : Nat} (y : Nat) :
    (setSize mem p size y).ptr = (mem y).ptr := by
  by_cases hy : y = p
  · rw [hy, setSize_self]
  · rw [setSize_of_ne hy]

theorem before_mem_append (base : Nat) (l1 l2 : List Extent) :
    before base l1 ∈ base :: starts (l1 ++ l2) := by
  rw [starts, map_append, ← cons_append]
  exact mem_append_left _ (before_mem base l1)

/-- The whole block is taken. -/
theorem take_all (hinv : Inv base h free) (hfree : free = l1 ++ a :: l2)
    (hlen : a.len = bytes nunits) (hsize : (h.mem a.start).size = nunits) :
    Taken base h nunits a.start { h with
      mem := setPtr h.mem (before base l1) (h.mem a.start).ptr, freep := some (before base l1) } := by
  subst hfree
  have hblock : (⟨a.start, bytes nunits⟩ : Extent) = a := by rw [← hlen]
  have hperm : (l1 ++ l2 ++ a :: h.live).Perm (l1 ++ a :: l2 ++ h.live) :=
    perm_middle.trans (perm_middle.symm.append_right h.live)
  have hring := hinv.ring
  rw [starts, map_append, map_cons] at hring
  have hnodup := hinv.nodup
  rw [starts, map_append, map_cons, ← cons_append, nodup_append'] at hnodup
  refine ⟨rfl, rfl, ?_, l1 ++ l2, ?_⟩
  · rw [setPtr_size, hsize]
  rw [hblock]
  refine ⟨?_, ⟨_, before_mem_append base l1 l2, rfl⟩, ?_, fun b hb => ?_, fun b hb => ?_, ?_,
    (Same.of_perm hperm).trans hinv.same, hinv.once, hinv.below, hinv.small⟩
  · rw [starts, map_append]
    refine hring.splice hnodup.1 ((path_append.mp hring).2.of_next_eq ?_ fun z hz => ?_)
      fun y _ hy => ?_
    · change (setPtr h.mem (before base l1) (h.mem a.start).ptr (before base l1)).ptr = _
      rw [setPtr_self]
    · have hz : z ≠ before base l1 := fun heq =>
        hnodup.2.2 (heq ▸ before_mem base l1) (mem_cons_of_mem _ hz)
      exact congrArg Header.ptr (setPtr_of_ne hz)
    · exact congrArg Header.ptr (setPtr_of_ne hy)
  · rw [setPtr_size]
    exact hinv.baseSize
  · rw [setPtr_size]
    exact hinv.sizes b (hperm.mem_iff.mp hb)
  · exact hinv.pos b (hperm.mem_iff.mp hb)
  · exact hinv.gaps.sublist ((sublist_cons_self a l2).append_left l1)

/-- The end of the block is taken. -/
theorem take_end (hinv : Inv base h free) (hfree : free = l1 ++ a :: l2) (nunits rest : Nat)
    (hlen : a.len = bytes rest + bytes nunits) (hrest : 0 < rest) (hunits : 0 < nunits) :
    Taken base h nunits (a.start + bytes rest) { h with
      mem := setSize (setSize h.mem a.start rest) (a.start + bytes rest) nunits,
      freep := some (before base l1) } := by
  subst hfree
  have hmem : a ∈ l1 ++ a :: l2 ++ h.live :=
    mem_append_left _ (mem_append_right _ mem_cons_self)
  have hsmall : a.len < 2 ^ 36 := by
    have hle := len_le_total hmem
    rw [hinv.same.total] at hle
    exact Nat.lt_of_le_of_lt hle hinv.small
  rw [hlen] at hsmall
  have hrestlen : 0 < bytes rest := by
    rw [bytes]
    omega
  have hunitslen : 0 < bytes nunits := by
    rw [bytes]
    omega
  have hmod : rest % 2 ^ 32 = rest ∧ nunits % 2 ^ 32 = nunits := by
    simp only [bytes] at hsmall
    omega
  have hne : a.start ≠ a.start + bytes rest := by omega
  have hperm : (l1 ++ a :: l2 ++ h.live).Perm (a :: (l1 ++ l2 ++ h.live)) :=
    perm_middle.append_right h.live
  have hperm' : (l1 ++ ⟨a.start, bytes rest⟩ :: l2 ++
      ⟨a.start + bytes rest, bytes nunits⟩ :: h.live).Perm
      (⟨a.start, bytes rest⟩ :: ⟨a.start + bytes rest, bytes nunits⟩ :: (l1 ++ l2 ++ h.live)) :=
    (perm_middle.append_right _).trans (perm_middle.cons _)
  -- the headers of the other blocks are not touched
  have hother : ∀ b ∈ l1 ++ l2 ++ h.live,
      setSize (setSize h.mem a.start rest) (a.start + bytes rest) nunits b.start =
        h.mem b.start := by
    intro b hb
    have hpair := pairwise_apart hinv.once' hinv.pos
    have hapart := (pairwise_cons.mp (hpair.perm hperm fun h => Or.symm h)).1 b hb
    have hbpos := hinv.pos b (hperm.mem_iff.mpr (mem_cons_of_mem a hb))
    simp only [Extent.Apart, Extent.stop] at hapart
    rw [setSize_of_ne (by omega), setSize_of_ne (by omega)]
  have hbase := hinv.base_lt hmem
  have hall : ∀ P : Extent → Prop, P ⟨a.start, bytes rest⟩ →
      P ⟨a.start + bytes rest, bytes nunits⟩ → (∀ b ∈ l1 ++ l2 ++ h.live, P b) →
      ∀ b ∈ l1 ++ ⟨a.start, bytes rest⟩ :: l2 ++
        ⟨a.start + bytes rest, bytes nunits⟩ :: h.live, P b := by
    intro P h1 h2 h3 b hb
    rcases mem_cons.mp (hperm'.mem_iff.mp hb) with rfl | hb
    · exact h1
    · rcases mem_cons.mp hb with rfl | hb
      · exact h2
      · exact h3 b hb
  refine ⟨rfl, rfl, ?_, l1 ++ ⟨a.start, bytes rest⟩ :: l2, ?_⟩
  · dsimp only
    rw [setSize_self, hmod.2]
  refine ⟨?_, ⟨_, before_mem_append base l1 _, rfl⟩, ?_, hall _ ?_ ?_ fun b hb => ?_,
    hall _ hrestlen hunitslen fun b hb => ?_, ?_, ?_, hinv.once, hinv.below, hinv.small⟩
  · have hring := hinv.ring
    rw [starts, map_append, map_cons] at hring ⊢
    refine hring.congr fun y _ => ?_
    exact (setSize_ptr y).trans (setSize_ptr y)
  · dsimp only
    rw [setSize_of_ne (by omega), setSize_of_ne (by omega)]
    exact hinv.baseSize
  · dsimp only
    rw [setSize_of_ne hne, setSize_self, hmod.1]
  · dsimp only
    rw [setSize_self, hmod.2]
  · dsimp only
    rw [hother b hb]
    exact hinv.sizes b (hperm.mem_iff.mpr (mem_cons_of_mem a hb))
  · exact hinv.pos b (hperm.mem_iff.mpr (mem_cons_of_mem a hb))
  · obtain ⟨hleft, hright, hcross⟩ := pairwise_append.mp hinv.gaps
    obtain ⟨hafter, htail⟩ := pairwise_cons.mp hright
    refine pairwise_append.mpr ⟨hleft, pairwise_cons.mpr ⟨fun c hc => ?_, htail⟩,
      fun c hc d hd => ?_⟩
    · have hlt := hafter c hc
      simp only [Extent.stop] at hlt ⊢
      omega
    · rcases mem_cons.mp hd with rfl | hd
      · exact hcross c hc a mem_cons_self
      · exact hcross c hc d (mem_cons_of_mem a hd)
  · refine (Same.of_perm hperm').trans (Same.trans ?_ ((Same.of_perm hperm).symm.trans hinv.same))
    have hjoin := Same.join ⟨a.start, bytes rest⟩ ⟨a.start + bytes rest, bytes nunits⟩
      (l1 ++ l2 ++ h.live) rfl
    rw [← hlen] at hjoin
    exact hjoin

/-- The block behind `prevp` is large enough. -/
theorem after_take (hinv : Inv base h free) (hprev : prevp ∈ base :: starts free)
    (hunits : 0 < nunits) (hfits : nunits ≤ (h.mem (nextOf h.mem prevp)).size) :
    Taken base h nunits (h.take prevp nunits).1 (h.take prevp nunits).2 := by
  have hne : nextOf h.mem prevp ≠ base := by
    intro heq
    rw [heq, hinv.baseSize] at hfits
    omega
  obtain ⟨l1, a, l2, hfree, ha, hbefore⟩ := hinv.split_next hprev hne
  have hmem : a ∈ free ++ h.live :=
    mem_append_left _ (hfree ▸ mem_append_right _ mem_cons_self)
  have hsize := hinv.sizes a hmem
  rw [← ha] at hfits
  have hptr : (h.mem prevp).ptr = a.start := ha.symm
  rw [Heap.take]
  dsimp only
  rw [hptr]
  by_cases hexact : (h.mem a.start).size = nunits
  · rw [if_pos hexact]
    rw [hexact] at hsize
    have htaken := hinv.take_all hfree hsize.symm hexact
    rw [hbefore] at htaken
    exact htaken
  · rw [if_neg hexact]
    have hlt : ((h.mem a.start).size - nunits) % 2 ^ 32 = (h.mem a.start).size - nunits := by
      have hle := len_le_total hmem
      have hsmall := hinv.small
      rw [hinv.same.total, ← hsize, bytes] at hle
      exact Nat.mod_eq_of_lt (by omega)
    have htaken := hinv.take_end hfree nunits ((h.mem a.start).size - nunits)
      (by rw [← hsize]; simp only [bytes]; omega) (by omega) hunits
    rw [hbefore] at htaken
    rw [setSize_self]
    rw [hlt]
    exact htaken

/-- Once around the list. -/
theorem scan_cases (hinv : Inv base h free) {f : Nat} (hf : h.freep = some f) (nunits : Nat) :
    (∃ prevp ∈ base :: starts free,
      scan (nextOf h.mem) (fun p => nunits ≤ (h.mem p).size) f h.rounds f = some (some prevp) ∧
      nunits ≤ (h.mem (nextOf h.mem prevp)).size) ∨
    scan (nextOf h.mem) (fun p => nunits ≤ (h.mem p).size) f h.rounds f = some none ∧
      ∀ b ∈ free, b.len < bytes nunits := by
  obtain ⟨f', hf', hfreep⟩ := hinv.entry
  obtain rfl : f' = f := some.inj (hfreep.symm.trans hf)
  obtain ⟨l, hpath, hperm⟩ := hinv.ring.exists_rotate hf'
  have hnodup := hperm.nodup_iff.mpr hinv.nodup
  have hlength : l.length < h.rounds := by
    have hle := hinv.length_le
    have heq := hperm.length_eq
    rw [length_cons, length_cons] at heq
    rw [Heap.rounds]
    omega
  rcases hpath.scan (fun p => nunits ≤ (h.mem p).size) (nodup_cons.mp hnodup).1 hlength with ⟨prevp, hmem, hscan, hfits⟩ | ⟨hscan, hnone⟩
  · exact .inl ⟨prevp, hperm.mem_iff.mp hmem, hscan, of_decide_eq_true hfits⟩
  · refine .inr ⟨hscan, fun b hb => ?_⟩
    have hmem : b.start ∈ base :: starts free :=
      mem_cons_of_mem base (mem_map_of_mem hb)
    have hlt := of_decide_eq_false (hnone _ (hperm.mem_iff.mpr hmem))
    rw [← hinv.sizes b (mem_append_left _ hb)]
    simp only [bytes]
    omega

/-- A list with a block that is large enough. -/
theorem search_found (hinv : Inv base h free) (hunits : 0 < nunits)
    (hlarge : ∃ c ∈ free, bytes nunits ≤ c.len) (answers : List (Option Nat)) :
    ∃ p h', h.search nunits answers = some (some p, h') ∧ Taken base h nunits p h' := by
  obtain ⟨f, -, hf⟩ := hinv.entry
  obtain ⟨c, hc, hle⟩ := hlarge
  rcases hinv.scan_cases hf nunits with ⟨prevp, hmem, hscan, hfits⟩ | ⟨-, hnone⟩
  · refine ⟨_, _, ?_, hinv.after_take hmem hunits hfits⟩
    rw [Heap.search.eq_def]
    dsimp only [bind, Option.bind]
    rw [hf]
    dsimp only
    rw [hscan]
  · exact absurd (hnone c hc) (Nat.not_lt.mpr hle)

/-- The memory from `sbrk` after a call of `malloc`. -/
def Grown (nunits : Nat) (core core' : List Extent) : Prop :=
  core' = core ∨ ∃ q, core' = ⟨q, bytes (Heap.coreUnits nunits)⟩ :: core

/-- What `malloc` does: it fails and changes nothing, or hands out a block of the size asked for,
after it has added memory to the heap if there was none that was large enough. -/
inductive Served (base : Nat) (h : Heap) (nunits : Nat) : Option Nat → Heap → Prop
  | failed : Served base h nunits none h
  | taken {h1 h' : Heap} {p : Nat} : h1.live = h.live → Grown nunits h.core h1.core →
      Taken base h1 nunits p h' → Served base h nunits (some p) h'

/-- The condition under which no size overflows: `sbrk` fails, or all memory together is less than
2^32 units. -/
def Small (h : Heap) (nunits : Nat) (answers : List (Option Nat)) : Prop :=
  (∀ p ∈ answers, p = none) ∨ total h.core + bytes (Heap.coreUnits nunits) < 2 ^ 36

theorem coreUnits_le (nunits : Nat) : nunits ≤ Heap.coreUnits nunits := by
  rw [Heap.coreUnits]
  split <;> omega

theorem after_search (hinv : Inv base h free) (hunits : 0 < nunits) (htop : h.Above base top)
    (hfresh : Heap.Fresh (bytes (Heap.coreUnits nunits)) top answers)
    (hsmall : Small h nunits answers) :
    ∃ r h', h.search nunits answers = some (r, h') ∧ Served base h nunits r h' := by
  obtain ⟨f, -, hf⟩ := hinv.entry
  rcases hinv.scan_cases hf nunits with ⟨prevp, hmem, hscan, hfits⟩ | ⟨hscan, -⟩
  · refine ⟨_, _, ?_, .taken rfl (.inl rfl) (hinv.after_take hmem hunits hfits)⟩
    rw [Heap.search.eq_def]
    dsimp only [bind, Option.bind]
    rw [hf]
    dsimp only
    rw [hscan]
  · rw [Heap.search.eq_def]
    dsimp only [bind, Option.bind]
    rw [hf]
    dsimp only
    rw [hscan]
    match answers, hfresh, hsmall with
    | [], _, _ => exact ⟨_, _, rfl, .failed⟩
    | none :: rest, _, _ => exact ⟨_, _, rfl, .failed⟩
    | some q :: rest, hfresh, hsmall =>
      have hq : h.Above base q :=
        ⟨Nat.le_trans htop.1 hfresh.1, fun b hb => Nat.le_trans (htop.2 b hb) hfresh.1⟩
      have hnu := coreUnits_le nunits
      have hsum : total h.core + bytes (Heap.coreUnits nunits) < 2 ^ 36 :=
        hsmall.resolve_left fun hall => nomatch hall _ mem_cons_self
      obtain ⟨h1, free1, hmore, hlive, hcore, hinv1, c, hc, hle⟩ :=
        hinv.after_morecore hq (by omega) hsum
      have hbytes : bytes nunits ≤ c.len := by
        simp only [bytes] at hle ⊢
        omega
      obtain ⟨p, h2, hsearch, htaken⟩ := hinv1.search_found hunits ⟨c, hc, hbytes⟩ rest
      dsimp only
      rw [hmore]
      exact ⟨_, _, hsearch, .taken hlive (.inr ⟨q, hcore⟩) htaken⟩

end Inv

/-! ## Runs -/

/-- Before the first call. -/
def Untouched (h : Heap) : Prop := h.freep = none ∧ h.live = [] ∧ h.core = []

/-- The free list is a ring in address order that begins at `base`; its blocks and the live ones are
apart, make up the memory from `sbrk`, and no two free blocks touch. -/
structure Arranged (base : Nat) (h : Heap) (free : List Extent) : Prop where
  entry : ∃ f ∈ base :: starts free, h.freep = some f
  ring : Path (nextOf h.mem) base (starts free) base
  order : (base :: starts free).Pairwise (· < ·)
  sizes : ∀ b ∈ free ++ h.live, bytes (h.mem b.start).size = b.len
  pos : ∀ b ∈ free ++ h.live, 0 < b.len
  apart : (free ++ h.live).Pairwise Extent.Apart
  covers : ∀ x, (∃ b ∈ free ++ h.live, b.Has x) ↔ ∃ c ∈ h.core, c.Has x
  coalesced : ∀ a ∈ free, ∀ b ∈ free, a.stop ≠ b.start

/-- All blocks are arranged so, or there are none yet. -/
def InOrder (base : Nat) (h : Heap) : Prop := Untouched h ∨ ∃ free, Arranged base h free

/-- The call ends.  A `malloc` that fails leaves the blocks as they are; another one returns a block
with room for the request, inside the memory from `sbrk`. -/
def Serves (base : Nat) (h : Heap) : HeapCall → Prop
  | .malloc nbytes answers => ∃ r h', h.malloc base nbytes answers = some (r, h') ∧
      match r with
      | none => h'.live = h.live ∧ h'.core = h.core ∧ (h.freep ≠ none → h' = h)
      | some p => nbytes + 16 ≤ bytes (h'.mem p).size ∧
          ∀ x, p ≤ x → x < p + bytes (h'.mem p).size → ∃ c ∈ h'.core, c.Has x
  | .free bp => ∃ h', h.free bp = some h'
  | .write _ => True

/-- No size overflows in this call. -/
def SmallCall (h : Heap) : HeapCall → Prop
  | .malloc nbytes answers => Inv.Small h (Heap.units nbytes) answers
  | .free _ | .write _ => True

/-- The states after calls that are proper and small. -/
def Reached (base : Nat) : Heap → Prop :=
  Machine.Reach (Heap.next base) (fun h e => h.Proper base e ∧ SmallCall h e) Untouched

variable {base : Nat} {h : Heap} {free : List Extent}

/-- Between two free blocks there is a gap. -/
theorem Inv.coalesced (hinv : Inv base h free) {b : Extent} (ha : a ∈ free) (hb : b ∈ free) :
    a.stop ≠ b.start := by
  have hpos := fun (c : Extent) hc => hinv.pos c (mem_append_left h.live hc)
  by_cases hab : a = b
  · have hapos := hpos a ha
    rw [← hab, Extent.stop]
    omega
  have hsymm : Std.Symm fun c d : Extent => c.stop ≠ d.start ∧ d.stop ≠ c.start :=
    ⟨fun _ _ hcd => hcd.symm⟩
  have hpair : free.Pairwise fun c d => c.stop ≠ d.start ∧ d.stop ≠ c.start := by
    refine hinv.gaps.imp_of_mem fun {c d} hc hd hlt => ⟨Nat.ne_of_lt hlt, ?_⟩
    simp only [Extent.stop] at hlt ⊢
    omega
  exact (hpair.forall ha hb hab).1

theorem Inv.arranged (hinv : Inv base h free) : Arranged base h free := by
  refine ⟨hinv.entry, hinv.ring, hinv.sorted, hinv.sizes, hinv.pos,
    pairwise_apart hinv.once' hinv.pos, fun x => ?_, fun a ha b hb => hinv.coalesced ha hb⟩
  constructor
  · rintro ⟨b, hb, hx⟩
    exact hinv.exists_core hb hx
  · rintro ⟨c, hc, hx⟩
    have hone := one_le_cover hc hx
    rw [← hinv.same.cover] at hone
    exact exists_of_cover hone

/-- The invariant, or no call yet. -/
def Kept (base : Nat) (h : Heap) : Prop := Untouched h ∨ ∃ free, Inv base h free

theorem Kept.inOrder (hkept : Kept base h) : InOrder base h := by
  rcases hkept with huntouched | ⟨free, hinv⟩
  · exact .inl huntouched
  · exact .inr ⟨free, hinv.arranged⟩

/-- The first lines of `malloc` make an empty ring of `base`. -/
theorem Kept.start (hkept : Kept base h) : ∃ free, Inv base (h.start base) free := by
  rcases hkept with ⟨hfreep, hlive, hcore⟩ | ⟨free, hinv⟩
  · refine ⟨[], ?_⟩
    rw [Heap.start, hfreep]
    have hnone : ∀ b ∈ ([] : List Extent) ++ h.live, False := by
      rw [hlive]
      exact nofun
    refine ⟨?_, ⟨base, mem_cons_self, rfl⟩, ?_, fun b hb => (hnone b hb).elim,
      fun b hb => (hnone b hb).elim, .nil, ?_, fun x => ?_, ?_, ?_⟩
    · change (setSize (setPtr h.mem base base) base 0 base).ptr = base
      rw [setSize_self, setPtr_self]
    · dsimp only
      rw [setSize_self]
      exact Nat.zero_mod _
    · rw [hlive, hcore]
      exact Same.refl []
    · rw [hcore]
      exact Nat.zero_le 1
    · rw [hcore]
      exact nofun
    · rw [hcore]
      decide
  · obtain ⟨f, -, hf⟩ := hinv.entry
    refine ⟨free, ?_⟩
    rw [Heap.start, hf]
    exact hinv

theorem start_live : (h.start base).live = h.live := by
  rw [Heap.start]
  split <;> rfl

theorem start_core : (h.start base).core = h.core := by
  rw [Heap.start]
  split <;> rfl

theorem units_spec (h : nbytes < 2 ^ 31 - 2 ^ 17) :
    0 < Heap.units nbytes ∧ nbytes + 16 ≤ bytes (Heap.units nbytes) := by
  simp only [Heap.units, bytes]
  omega

theorem Kept.malloc (hkept : Kept base h) (hproper : h.Proper base (.malloc nbytes answers))
    (hsmall : SmallCall h (.malloc nbytes answers)) :
    ∃ r h', h.malloc base nbytes answers = some (r, h') ∧
      Inv.Served base (h.start base) (Heap.units nbytes) r h' := by
  obtain ⟨free, hinv⟩ := hkept.start
  obtain ⟨hbytes, top, htop, hfresh⟩ := hproper
  have htop' : (h.start base).Above base top := by
    rw [Heap.Above, start_core]
    exact htop
  have hsmall' : Inv.Small (h.start base) (Heap.units nbytes) answers := by
    rw [Inv.Small, start_core]
    exact hsmall
  exact hinv.after_search (units_spec hbytes).1 htop' hfresh hsmall'

section

variable (hinv : Inv base h free)
include hinv

/-- A block given back is freed. -/
theorem Inv.free_live_block {bp : Nat} (hbp : ∃ b ∈ h.live, b.start = bp) :
    ∃ h', h.free bp = some h' ∧ ∃ free', Inv base (h'.forget bp) free' := by
  obtain ⟨b, hb, hstart⟩ := hbp
  obtain ⟨c, l1, l2, -, hc, hlive, herase⟩ :=
    exists_of_eraseP (p := fun b => decide (b.start = bp)) hb (decide_eq_true hstart)
  obtain rfl := of_decide_eq_true hc
  have hperm : h.live.Perm (c :: (l1 ++ l2)) := hlive ▸ perm_middle
  obtain ⟨h', free', hfree, hlive', -, hinv', -⟩ := hinv.after_free hperm
  refine ⟨h', hfree, free', ?_⟩
  rw [Heap.forget, hlive', herase]
  exact hinv'

/-- Only the headers matter. -/
theorem Inv.of_headers (hbase : mem base = h.mem base)
    (hsame : ∀ b ∈ free ++ h.live, mem b.start = h.mem b.start) : Inv base { h with mem } free := by
  refine ⟨hinv.ring.congr ?_, hinv.entry, ?_, fun b hb => ?_, hinv.pos, hinv.gaps, hinv.same,
    hinv.once, hinv.below, hinv.small⟩
  · refine forall_mem_cons.mpr ⟨congrArg Header.ptr hbase, fun y hy => ?_⟩
    obtain ⟨b, hb, rfl⟩ := mem_map.mp hy
    exact congrArg Header.ptr (hsame b (mem_append_left _ hb))
  · exact (congrArg Header.size hbase).trans hinv.baseSize
  · dsimp only
    rw [hsame b hb]
    exact hinv.sizes b hb

/-- The program does not write to a header. -/
theorem Inv.no_payload {b : Extent} (hb : b ∈ free ++ h.live) {x : Nat} (hx : b.start ≤ x)
    (hx' : x < b.start + 16) : ¬ h.Payload x := by
  rintro ⟨c, hc, hlow, hhigh⟩
  have hpos := hinv.pos b hb
  by_cases hbc : b = c
  · rw [hbc] at hx'
    omega
  · have hapart := hinv.apart hb (mem_append_right _ hc) hbc
    simp only [Extent.Apart, Extent.stop] at hapart hhigh
    omega

theorem Inv.write (hproper : h.Proper base (.write mem)) : Inv base { h with mem } free := by
  refine hinv.of_headers (hproper base fun x _ hx' => ?_) fun b hb =>
    hproper b.start fun x hx hx' => hinv.no_payload hb hx hx'
  rintro ⟨c, hc, hlow, -⟩
  have hlt := hinv.base_lt (mem_append_right free hc)
  omega

end

theorem Kept.next (hkept : Kept base h) {h' : Heap} (hproper : h.Proper base e)
    (hsmall : SmallCall h e) (hnext : h.next base e = some h') : Kept base h' := by
  cases e with
  | malloc nbytes answers =>
    obtain ⟨r, h1, hmalloc, hserved⟩ := hkept.malloc hproper hsmall
    rw [Heap.next, hmalloc] at hnext
    obtain rfl := some.inj hnext
    cases hserved with
    | failed => exact .inr hkept.start
    | taken hlive hgrown htaken =>
      obtain ⟨free, hinv⟩ := htaken.inv
      refine .inr ⟨free, ?_⟩
      dsimp only [Heap.record]
      rw [htaken.size, htaken.live]
      exact hinv
  | free bp =>
    rcases hkept with huntouched | ⟨free, hinv⟩
    · obtain ⟨b, hb, -⟩ := hproper
      rw [huntouched.2.1] at hb
      cases hb
    · obtain ⟨h1, hfree, free', hinv'⟩ := hinv.free_live_block hproper
      rw [Heap.next, hfree] at hnext
      obtain rfl := some.inj hnext
      exact .inr ⟨free', hinv'⟩
  | write mem =>
    obtain rfl := some.inj hnext
    rcases hkept with huntouched | ⟨free, hinv⟩
    · exact .inl huntouched
    · exact .inr ⟨free, hinv.write hproper⟩

theorem Reached.kept (hreached : Reached base h) : Kept base h := by
  refine Machine.Reach.invariant (P := Kept base) (fun h huntouched => .inl huntouched) ?_ hreached
  exact fun h e h' hkept hok hnext => hkept.next hok.1 hok.2 hnext

theorem Kept.serves (hkept : Kept base h) (hproper : h.Proper base e) (hsmall : SmallCall h e) :
    Serves base h e := by
  cases e with
  | malloc nbytes answers =>
    obtain ⟨r, h', hmalloc, hserved⟩ := hkept.malloc hproper hsmall
    refine ⟨r, h', hmalloc, ?_⟩
    cases hserved with
    | failed =>
      refine ⟨start_live, start_core, fun hfreep => ?_⟩
      rw [Heap.start]
      split
      · rfl
      · contradiction
    | @taken _ _ p hlive hgrown htaken =>
      obtain ⟨free, hinv⟩ := htaken.inv
      dsimp only
      rw [htaken.size]
      refine ⟨(units_spec hproper.1).2, fun x hx hx' => ?_⟩
      exact hinv.exists_core (mem_append_right _ mem_cons_self) ⟨hx, hx'⟩
  | free bp =>
    rcases hkept with huntouched | ⟨free, hinv⟩
    · obtain ⟨b, hb, -⟩ := hproper
      rw [huntouched.2.1] at hb
      cases hb
    · obtain ⟨h', hfree, -⟩ := hinv.free_live_block hproper
      exact ⟨h', hfree⟩
  | write mem => exact trivial

/-- In every run in which `sbrk` hands out less than 2^32 units, all blocks are in order after every
call, and every call is served. -/
theorem allocator_in_order (hreached : Reached base h) :
    InOrder base h ∧ ∀ e, h.Proper base e → SmallCall h e → Serves base h e :=
  ⟨hreached.kept.inOrder, fun _ hproper hsmall => hreached.kept.serves hproper hsmall⟩

/-- A block of 100 bytes is cut off the end of the first memory from `sbrk`, and may be freed. -/
theorem allocator_in_order_hundred : ∃ h : Heap, h.live = [⟨130944, 128⟩] ∧ InOrder 4096 h ∧
    Serves 4096 h (.free 130944) := by
  have hlive : ((Heap.next 4096 ⟨fun _ => ⟨0, 0⟩, none, [], []⟩ (.malloc 100 [some 65536])).map
      Heap.live) = some [⟨130944, 128⟩] := by decide +kernel
  obtain ⟨h, hnext, hlive⟩ := map_eq_some_iff.mp hlive
  have hproper : Heap.Proper 4096 ⟨fun _ => ⟨0, 0⟩, none, [], []⟩ (.malloc 100 [some 65536]) :=
    ⟨by decide, 65536, ⟨by decide, nofun⟩, Nat.le_refl _, trivial⟩
  have hreached : Reached 4096 h :=
    .step (.start ⟨rfl, rfl, rfl⟩) ⟨hproper, .inr (by decide)⟩ hnext
  obtain ⟨horder, hserves⟩ := allocator_in_order hreached
  exact ⟨h, hlive, horder, hserves _ ⟨_, hlive ▸ mem_cons_self, rfl⟩ trivial⟩

end EAFITos.Umalloc
