/-
A run of the allocator in which a size overflows: 33 blocks of almost 2^31 bytes, one behind the
other, are freed from the last to the first.  All of them are joined to one block of more than 2^32
units, and its header says less.
-/
import EAFITos.UmallocCalls

namespace EAFITos.Umalloc

open Extents LinkedPath List

variable {base : Nat} {h : Heap}

variable {bp all nbytes : Nat}

theorem free_behind_base (hfreep : h.freep = some base) (hsize : (h.mem base).size = 0)
    (hlt : base < bp) (hnext : (h.mem base).ptr = base ∨ bp < (h.mem base).ptr) :
    h.free bp = some { h with mem := setPtr (Heap.joinNext h.mem base bp) base bp } := by
  have hstops : Heap.stops h.mem bp base = true := by
    simp only [Heap.stops, Bool.or_eq_true, Bool.and_eq_true, decide_eq_true_eq]
    omega
  have hfollow : follow (fun p => (h.mem p).ptr) (Heap.stops h.mem bp) h.rounds base = some base := by
    rw [Heap.rounds, follow, if_pos hstops]
  have hsame : Heap.joinNext h.mem base bp base = h.mem base := by
    rw [Heap.joinNext]
    split
    · exact (setPtr_of_ne (Nat.ne_of_lt hlt)).trans (setSize_of_ne (Nat.ne_of_lt hlt))
    · exact setPtr_of_ne (Nat.ne_of_lt hlt)
  have hprev : Heap.joinPrev (Heap.joinNext h.mem base bp) base bp =
      setPtr (Heap.joinNext h.mem base bp) base bp := by
    rw [Heap.joinPrev, hsame, hsize, bytes, if_neg (by omega)]
  rw [Heap.free, hfreep]
  dsimp only [bind, Option.bind]
  rw [hfollow]
  dsimp only
  rw [hprev]

/-- A free list of `base` alone gets its first block. -/
theorem free_first {n : Nat} (hfreep : h.freep = some base) (hbase : h.mem base = ⟨base, 0⟩)
    (hbp : (h.mem bp).size = n) (hlt : base < bp) :
    ∃ mem, h.free bp = some { h with mem } ∧ mem base = ⟨bp, 0⟩ ∧ mem bp = ⟨base, n⟩ ∧
      ∀ y, y ≠ base → y ≠ bp → mem y = h.mem y := by
  have hne : bp ≠ base := Nat.ne_of_gt hlt
  have hjoin : Heap.joinNext h.mem base bp = setPtr h.mem bp base := by
    rw [Heap.joinNext, hbase, if_neg (by dsimp only; omega)]
  refine ⟨_, free_behind_base hfreep (by rw [hbase]) hlt (.inl (by rw [hbase])), ?_, ?_, ?_⟩
  · rw [hjoin, setPtr_self, setPtr_of_ne hne.symm, hbase]
  · rw [hjoin, setPtr_of_ne hne, setPtr_self, ← hbp]
  · intro y hy hy'
    rw [hjoin, setPtr_of_ne hy, setPtr_of_ne hy']

theorem free_joined {c m n : Nat} (hfreep : h.freep = some base) (hbase : h.mem base = ⟨c, 0⟩)
    (hc : h.mem c = ⟨base, m⟩) (hbp : (h.mem bp).size = n) (hjoin : bp + bytes n = c)
    (hlt : base < bp) (hn : 0 < n) :
    ∃ mem, h.free bp = some { h with mem } ∧ mem base = ⟨bp, 0⟩ ∧
      mem bp = ⟨base, (n + m) % 2 ^ 32⟩ ∧ ∀ y, y ≠ base → y ≠ bp → mem y = h.mem y := by
  have hbpc : bp < c := by
    rw [← hjoin, bytes]
    omega
  have hne : bp ≠ base := Nat.ne_of_gt hlt
  have hnext : Heap.joinNext h.mem base bp = setPtr (setSize h.mem bp (n + m)) bp base := by
    rw [Heap.joinNext, hbp, hbase, if_pos hjoin]
    dsimp only
    rw [setSize_of_ne hne.symm, hbase]
    dsimp only
    rw [setSize_of_ne (Nat.ne_of_gt hbpc), hc]
  refine ⟨_, free_behind_base hfreep (by rw [hbase]) hlt (.inr (by rw [hbase]; exact hbpc)),
    ?_, ?_, ?_⟩
  · rw [hnext, setPtr_self, setPtr_of_ne hne.symm, setSize_of_ne hne.symm, hbase]
  · rw [hnext, setPtr_of_ne hne, setPtr_self, setSize_self]
  · intro y hy hy'
    rw [hnext, setPtr_of_ne hy, setPtr_of_ne hy', setSize_of_ne hy']

/-- Nothing on the free list fits. -/
theorem scan_bare (hbase : h.mem base = ⟨base, 0⟩) {n : Nat} (hn : 0 < n) :
    scan (fun p => (h.mem p).ptr) (fun p => n ≤ (h.mem p).size) base h.rounds base =
      some none := by
  rw [Heap.rounds, scan, hbase]
  dsimp only
  rw [hbase, if_neg (by simp; omega), if_pos rfl]

/-- `malloc` with nothing on the free list and no more memory. -/
theorem search_fails (hfreep : h.freep = some base) (hbase : h.mem base = ⟨base, 0⟩) {n : Nat}
    (hn : 0 < n) : h.search n [] = some (none, h) := by
  rw [Heap.search.eq_def]
  dsimp only [bind, Option.bind]
  rw [hfreep]
  dsimp only
  rw [scan_bare hbase hn]

/-- `malloc` with nothing on the free list takes all that `sbrk` returns. -/
theorem search_bare (hfreep : h.freep = some base) (hbase : h.mem base = ⟨base, 0⟩) {n p : Nat}
    (hn : 4096 ≤ n) (hn' : n < 2 ^ 32) (hp : base < p) :
    ∃ mem, h.search n [some p] = some (some p, { h with mem, core := ⟨p, bytes n⟩ :: h.core }) ∧
      mem base = ⟨base, 0⟩ ∧ mem p = ⟨base, n⟩ ∧ ∀ y, y ≠ base → y ≠ p → mem y = h.mem y := by
  have hne : p ≠ base := Nat.ne_of_gt hp
  have hunits : Heap.coreUnits n = n := if_neg (by omega)
  have hsize : (setSize h.mem p n p).size = n := by
    rw [setSize_self]
    exact Nat.mod_eq_of_lt hn'
  -- `morecore` puts the block behind `base`
  obtain ⟨mem, hfree, hmembase, hmemp, hother⟩ := free_first
    (h := { h with mem := setSize h.mem p n, core := ⟨p, bytes n⟩ :: h.core }) hfreep
    ((setSize_of_ne hne.symm).trans hbase) hsize hp
  have hmore : h.morecore n p = some { h with mem, core := ⟨p, bytes n⟩ :: h.core } := hfree
  -- the first round finds nothing, the second one this block
  have hscan := scan_bare hbase (Nat.lt_of_lt_of_le (by decide) hn)
  have hscan' : scan (fun p => (mem p).ptr) (fun p => n ≤ (mem p).size) base
      (total (⟨p, bytes n⟩ :: h.core) + 2) base = some (some base) := by
    rw [scan, hmembase]
    dsimp only
    rw [hmemp, if_pos (decide_eq_true le_rfl)]
  have htake : Heap.take { h with mem, core := ⟨p, bytes n⟩ :: h.core } base n =
      (p, { h with mem := setPtr mem base base, core := ⟨p, bytes n⟩ :: h.core }) := by
    have hptr : (mem base).ptr = p := by rw [hmembase]
    have hsizep : (mem p).size = n := by rw [hmemp]
    rw [Heap.take]
    dsimp only
    rw [hptr, if_pos hsizep, hmemp, hfreep]
  refine ⟨setPtr mem base base, ?_, ?_, ?_, fun y hy hy' => ?_⟩
  · rw [Heap.search.eq_def]
    dsimp only [bind, Option.bind]
    rw [hfreep]
    dsimp only
    rw [hscan]
    dsimp only
    rw [hunits, hmore]
    dsimp only
    rw [Heap.search.eq_def]
    dsimp only [bind, Option.bind, Heap.rounds]
    rw [hfreep]
    dsimp only
    rw [hscan']
    dsimp only
    rw [← hfreep, htake]
  · rw [setPtr_self, hmembase]
  · rw [setPtr_of_ne hne, hmemp]
  · rw [setPtr_of_ne hy, hother y hy hy']
    exact setSize_of_ne hy'

/-- The block with number `k`, of `n` units. -/
def place (first n k : Nat) : Nat := first + k * bytes n

/-- The first `k` blocks, the last one in front. -/
def blocks (first n : Nat) : Nat → List Extent
  | 0 => []
  | k + 1 => ⟨place first n k, bytes n⟩ :: blocks first n k

theorem place_succ {first n k : Nat} : place first n k + bytes n = place first n (k + 1) := by
  rw [place, place, Nat.succ_mul, Nat.add_assoc]

theorem place_lt (first : Nat) {n j k : Nat} (hn : 0 < n) (h : j < k) :
    place first n j < place first n k := by
  have hmul : j * bytes n < k * bytes n :=
    Nat.mul_lt_mul_of_pos_right h (Nat.mul_pos hn (by decide))
  rw [place, place]
  omega

theorem stop_le_place {first n k : Nat} {b : Extent} (hb : b ∈ blocks first n k) :
    b.stop ≤ place first n k := by
  induction k with
  | zero => cases hb
  | succ k ih =>
    rw [← place_succ]
    rcases mem_cons.mp hb with rfl | hb
    · exact Nat.le_refl _
    · exact Nat.le_trans (ih hb) (Nat.le_add_right _ _)

/-- All states after proper calls. -/
abbrev AnyReached (base : Nat) : Heap → Prop :=
  Machine.Reach (Heap.next base) (Heap.Proper base) Untouched

/-- `k` blocks of `n` units are handed out, and nothing is free. -/
structure HandedOut (base first n k : Nat) (h : Heap) : Prop where
  reached : AnyReached base h
  freep : h.freep = some base
  bare : h.mem base = ⟨base, 0⟩
  sizes : ∀ j < k, (h.mem (place first n j)).size = n
  live : h.live = blocks first n k
  core : h.core = blocks first n k

/-- Of `all` blocks the ones from `k` on were freed and joined. -/
structure GivenBack (base first n all k : Nat) (h : Heap) : Prop where
  reached : AnyReached base h
  freep : h.freep = some base
  only : h.mem base = ⟨place first n k, 0⟩
  joined : h.mem (place first n k) = ⟨base, (all - k) * n % 2 ^ 32⟩
  sizes : ∀ j < k, (h.mem (place first n j)).size = n
  live : h.live = blocks first n k
  core : h.core = blocks first n all

section Run

variable {first n k : Nat}

/-- The first `malloc` gets nothing. -/
theorem handedOut_zero : ∃ h, HandedOut base first n 0 h := by
  let fresh : Heap := ⟨fun _ => ⟨0, 0⟩, none, [], []⟩
  let empty : Heap := fresh.start base
  have hbare : empty.mem base = ⟨base, 0⟩ := by
    change setSize (setPtr fresh.mem base base) base 0 base = _
    rw [setSize_self, setPtr_self]
    rfl
  have hmalloc : fresh.malloc base 0 [] = some (none, empty) :=
    search_fails (h := empty) rfl hbare (by decide)
  refine ⟨empty, .step (e := .malloc 0 []) (.start (s := fresh) ⟨rfl, rfl, rfl⟩) ?_ ?_, rfl, hbare,
    nofun, rfl, rfl⟩
  · exact ⟨by decide, base + 16, ⟨Nat.le_refl _, nofun⟩, trivial⟩
  · rw [Heap.next, hmalloc]
    rfl

/-- Every further one gets memory of its own. -/
theorem HandedOut.succ (hh : HandedOut base first n k h) (hbytes : nbytes < 2 ^ 31 - 2 ^ 17)
    (hunits : Heap.units nbytes = n) (hn : 4096 ≤ n) (hn' : n < 2 ^ 32)
    (hfirst : base + 16 ≤ first) : ∃ h', HandedOut base first n (k + 1) h' := by
  have hplace : base + 16 ≤ place first n k := Nat.le_trans hfirst (Nat.le_add_right _ _)
  obtain ⟨mem, hsearch, hbare, hnew, hother⟩ :=
    search_bare hh.freep hh.bare hn hn' (p := place first n k) (by omega)
  have hmalloc : h.malloc base nbytes [some (place first n k)] = some (some (place first n k),
      { h with mem, core := ⟨place first n k, bytes n⟩ :: h.core }) := by
    have hstart : h.start base = h := by rw [Heap.start, hh.freep]
    rw [Heap.malloc, hunits, hstart, hsearch]
  refine ⟨{ h with
      mem, live := ⟨place first n k, bytes n⟩ :: h.live, core := ⟨place first n k, bytes n⟩ :: h.core },
    .step (e := .malloc nbytes [some (place first n k)]) hh.reached ?_ ?_, hh.freep, hbare,
    fun j hj => ?_, congrArg _ hh.live, congrArg _ hh.core⟩
  · refine ⟨hbytes, place first n k, ⟨hplace, fun b hb => ?_⟩, Nat.le_refl _, trivial⟩
    exact stop_le_place (hh.core ▸ hb)
  · rw [Heap.next, hmalloc]
    dsimp only [Option.map, Heap.record]
    rw [hnew]
  · dsimp only
    rcases Nat.lt_succ_iff_lt_or_eq.mp hj with hj | rfl
    · have hlt := place_lt first (n := n) (by omega) hj
      have hle : first ≤ place first n j := Nat.le_add_right _ _
      rw [hother _ (by omega) (by omega)]
      exact hh.sizes j hj
    · rw [hnew]

/-- The program frees its last block. -/
theorem free_last {mem : Nat → Header} (hreached : AnyReached base h)
    (hlive : h.live = blocks first n (k + 1))
    (hfree : h.free (place first n k) = some { h with mem }) :
    AnyReached base { h with mem, live := blocks first n k } := by
  refine .step (e := .free (place first n k)) hreached ?_ ?_
  · exact ⟨⟨place first n k, bytes n⟩, hlive ▸ mem_cons_self, rfl⟩
  · rw [Heap.next, hfree]
    dsimp only [Option.map, Heap.forget]
    rw [hlive, blocks, eraseP_cons_of_pos (by simp)]

theorem HandedOut.free (hh : HandedOut base first n (k + 1) h) (hn : 0 < n) (hn' : n < 2 ^ 32)
    (hfirst : base + 16 ≤ first) : ∃ h', GivenBack base first n (k + 1) k h' := by
  have hplace : first ≤ place first n k := Nat.le_add_right _ _
  obtain ⟨mem, hfree, hbase, hnew, hother⟩ :=
    free_first hh.freep hh.bare (hh.sizes k (Nat.lt_succ_self k)) (by omega)
  refine ⟨_, free_last hh.reached hh.live hfree, hh.freep, hbase, ?_, fun j hj => ?_, rfl, hh.core⟩
  · rw [Nat.add_sub_cancel_left, Nat.one_mul, Nat.mod_eq_of_lt hn']
    exact hnew
  · have hlt := place_lt first hn hj
    have hle : first ≤ place first n j := Nat.le_add_right _ _
    dsimp only
    rw [hother _ (by omega) (by omega)]
    exact hh.sizes j (by omega)

theorem GivenBack.free (hh : GivenBack base first n all (k + 1) h) (hn : 0 < n)
    (hall : k + 1 ≤ all) (hfirst : base + 16 ≤ first) : ∃ h', GivenBack base first n all k h' := by
  have hplace : first ≤ place first n k := Nat.le_add_right _ _
  obtain ⟨mem, hfree, hbase, hnew, hother⟩ :=
    free_joined hh.freep hh.only hh.joined (hh.sizes k (Nat.lt_succ_self k)) place_succ
      (by omega) hn
  refine ⟨_, free_last hh.reached hh.live hfree, hh.freep, hbase, ?_, fun j hj => ?_, rfl, hh.core⟩
  · have hcount : all - k = (all - (k + 1)) + 1 := by omega
    rw [hcount, Nat.succ_mul, Nat.add_comm]
    rw [Nat.add_mod_mod] at hnew
    exact hnew
  · have hlt := place_lt first hn hj
    have hle : first ≤ place first n j := Nat.le_add_right _ _
    dsimp only
    rw [hother _ (by omega) (by omega)]
    exact hh.sizes j (by omega)

/-- All blocks are handed out, and all of them are freed. -/
theorem givenBack_all (hbytes : nbytes < 2 ^ 31 - 2 ^ 17) (hunits : Heap.units nbytes = n)
    (hn : 4096 ≤ n) (hn' : n < 2 ^ 32) (hall : 0 < all) (hfirst : base + 16 ≤ first) :
    ∃ h, GivenBack base first n all 0 h := by
  have hout : ∀ k, ∃ h, HandedOut base first n k h := by
    intro k
    induction k with
    | zero => exact handedOut_zero
    | succ k ih =>
      obtain ⟨h, hh⟩ := ih
      exact hh.succ hbytes hunits hn hn' hfirst
  have hback : ∀ d k, k + d + 1 = all → ∃ h, GivenBack base first n all k h := by
    intro d
    induction d with
    | zero =>
      rintro k rfl
      obtain ⟨h, hh⟩ := hout (k + 1)
      exact hh.free (by omega) hn' hfirst
    | succ d ih =>
      intro k hk
      obtain ⟨h, hh⟩ := ih (k + 1) (by omega)
      exact hh.free (by omega) (by omega) hfirst
  exact hback (all - 1) 0 (by omega)

/-- The last block is in memory from `sbrk` but not in the joined one. -/
theorem GivenBack.not_inOrder (hh : GivenBack base first n (all + 1) 0 h) (hn : 0 < n)
    (hfirst : base + 16 ≤ first) (hshort : bytes ((all + 1) * n % 2 ^ 32) ≤ all * bytes n) :
    ¬ InOrder base h := by
  have hplace : place first n 0 = first := by rw [place, Nat.zero_mul, Nat.add_zero]
  have hbase := hh.only
  have hjoined := hh.joined
  rw [hplace] at hbase hjoined
  rw [Nat.sub_zero] at hjoined
  rintro (huntouched | ⟨free, harranged⟩)
  · cases huntouched.1.symm.trans hh.freep
  have hring := harranged.ring
  have horder := harranged.order
  match free, hring, horder with
  | [], hring, _ =>
    have hnext : (h.mem base).ptr = base := hring
    rw [hbase] at hnext
    dsimp only at hnext
    omega
  | [b], hring, _ =>
    have hb : (h.mem base).ptr = b.start := hring.1
    rw [hbase] at hb
    have hsize := harranged.sizes b mem_cons_self
    rw [← hb, hjoined] at hsize
    have hcore : (⟨place first n all, bytes n⟩ : Extent) ∈ h.core := hh.core ▸ mem_cons_self
    have hpos : 0 < bytes n := Nat.mul_pos hn (by decide)
    obtain ⟨c, hc, hlow, hhigh⟩ := (harranged.covers (place first n all)).mpr
      ⟨_, hcore, Nat.le_refl _, Nat.lt_add_of_pos_right hpos⟩
    rw [hh.live] at hc
    obtain rfl := mem_singleton.mp hc
    rw [Extent.stop, ← hb, ← hsize, place] at hhigh
    dsimp only at hhigh
    omega
  | b :: c :: rest, hring, horder =>
    have hb : (h.mem base).ptr = b.start := hring.1
    have hc : (h.mem b.start).ptr = c.start := hring.2.1
    rw [hbase] at hb
    rw [← hb, hjoined] at hc
    have hlt : base < c.start := (pairwise_cons.mp horder).1 _ (by simp)
    dsimp only at hc
    omega

end Run

/-- 33 blocks of 2147352560 bytes. -/
theorem size_overflows : ∃ h, Machine.Reach (Heap.next 4096) (Heap.Proper 4096) Untouched h ∧
    ¬ InOrder 4096 h := by
  have hback : ∃ h, GivenBack 4096 65536 134209536 33 0 h :=
    givenBack_all (show 2147352560 < 2 ^ 31 - 2 ^ 17 by decide) (by decide) (by decide) (by decide)
      (by decide) (by decide)
  obtain ⟨h, hh⟩ := hback
  exact ⟨h, hh.reached, hh.not_inOrder (by decide) (by decide) (by decide)⟩

end EAFITos.Umalloc
