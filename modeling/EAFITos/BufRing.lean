/-
The links of the buffer cache of `kernel/bio.c`.  `Bio` keeps the buffers in a list; here they
are linked through `prev` and `next` as in the source, `refcnt` is a `uint`, and any number of
processes call the operations.  Each section under `bcache.lock`, each sleep-lock operation and
each disk transfer is one step.
-/
import EAFITos.Bio
import EAFITos.LinkedRing
import EAFITos.Transition
import Mathlib.Algebra.BigOperators.Group.Finset.Piecewise

namespace EAFITos

open LinkedRing Function List Option

/-- `bcache.head`: it lies behind the buffers. -/
def HEAD : Nat := NBUF

/-- A value of type `uint`. -/
def uint (n : Nat) : Nat := n % 2 ^ 32

/-- `n--` for an `uint`. -/
def uintPred (n : Nat) : Nat := uint (n + (2 ^ 32 - 1))

/-- What a process is doing in the buffer cache. -/
inductive BioPc where
  | idle
  /-- in `acquiresleep`, called by `bget` -/
  | waiting (i : Nat)
  /-- in `bread`, with the lock of the buffer -/
  | locked (i : Nat)
  /-- in `brelse`, after `releasesleep` -/
  | releasing (i : Nat)
  deriving DecidableEq, Repr

/-- The buffers, their links, the disk, the processes, and how often each buffer is pinned. -/
structure BioState where
  buf : Nat → Buf
  links : Links Nat
  disk : Nat → Block
  pc : Nat → BioPc
  pins : Nat → Nat
  panic : Option String

namespace BioState

/-- `binit` on zeroed buffers. -/
def binit (links : Links Nat) (disk : Nat → Block) : BioState where
  buf := fun _ => ⟨0, 0, false, 0, none, fun _ => 0⟩
  links := (List.range NBUF).foldl (fun links b => links.insertAfter HEAD b)
    ((links.setPrev HEAD HEAD).setNext HEAD HEAD)
  disk
  pc := fun _ => .idle
  pins := fun _ => 0
  panic := none

def setBuf (s : BioState) (i : Nat) (b : Buf) : BioState :=
  { s with buf := update s.buf i b }

def setPc (s : BioState) (p : Nat) (pc : BioPc) : BioState :=
  { s with pc := update s.pc p pc }

/-- Process `p` found the block in buffer `i`. -/
def found (s : BioState) (p i : Nat) : BioState :=
  (s.setBuf i { s.buf i with refcnt := uint ((s.buf i).refcnt + 1) }).setPc p (.waiting i)

/-- Process `p` takes buffer `i` for the block. -/
def recycled (s : BioState) (p i dev blockno : Nat) : BioState :=
  (s.setBuf i { s.buf i with dev, blockno, valid := false, refcnt := 1 }).setPc p (.waiting i)

/-- The part of `bget` under `bcache.lock`.  `none` when a loop does not end within the number
of buffers. -/
def bget (s : BioState) (p dev blockno : Nat) : Option BioState :=
  match Links.search s.links.next HEAD (fun i => decide ((s.buf i).names dev blockno)) (NBUF + 1)
      (s.links.next HEAD) with
  | none => none
  | some (some i) => some (s.found p i)
  | some none =>
    match Links.search s.links.prev HEAD (fun i => decide ((s.buf i).refcnt = 0)) (NBUF + 1)
        (s.links.prev HEAD) with
    | none => none
    | some (some i) => some (s.recycled p i dev blockno)
    | some none => some { s with panic := some "bget: no buffers" }

/-- `acquiresleep`, once nobody holds the lock. -/
def acquiresleep (s : BioState) (p : Nat) : Option BioState :=
  match s.pc p with
  | .waiting i =>
    if (s.buf i).lock = none then
      some ((s.setBuf i { s.buf i with lock := some p }).setPc p (.locked i))
    else
      none
  | _ => none

/-- The rest of `bread`. -/
def bread (s : BioState) (p : Nat) : Option BioState :=
  match s.pc p with
  | .locked i =>
    let b := s.buf i
    let filled := if b.valid then b else { b with valid := true, data := s.disk b.blockno }
    some ((s.setBuf i filled).setPc p .idle)
  | _ => none

/-- The holder changes the contents. -/
def edit (s : BioState) (p i : Nat) (data : Block) : Option BioState :=
  if (s.buf i).lock = some p then some (s.setBuf i { s.buf i with data }) else none

def bwrite (s : BioState) (p i : Nat) : BioState :=
  if (s.buf i).lock = some p then
    { s with disk := update s.disk (s.buf i).blockno (s.buf i).data }
  else
    { s with panic := some "bwrite" }

/-- `brelse` until it has released the sleep lock. -/
def releasesleep (s : BioState) (p i : Nat) : BioState :=
  if (s.buf i).lock = some p then
    (s.setBuf i { s.buf i with lock := none }).setPc p (.releasing i)
  else
    { s with panic := some "brelse" }

/-- The rest of `brelse`, under `bcache.lock`. -/
def brelse (s : BioState) (p : Nat) : Option BioState :=
  match s.pc p with
  | .releasing i =>
    let refcnt := uintPred (s.buf i).refcnt
    let s := (s.setBuf i { s.buf i with refcnt }).setPc p .idle
    some (if refcnt = 0 then { s with links := (s.links.unlink i).insertAfter HEAD i } else s)
  | _ => none

def bpin (s : BioState) (i : Nat) : BioState :=
  { s.setBuf i { s.buf i with refcnt := uint ((s.buf i).refcnt + 1) } with
    pins := update s.pins i (s.pins i + 1) }

def bunpin (s : BioState) (i : Nat) : BioState :=
  { s.setBuf i { s.buf i with refcnt := uintPred (s.buf i).refcnt } with
    pins := update s.pins i (s.pins i - 1) }

end BioState

/-- The steps of a process: a call, or the next part of the call it is in. -/
inductive BioCall where
  | bread (dev blockno : Nat)
  | acquired
  | filled
  | edit (i : Nat) (data : Block)
  | bwrite (i : Nat)
  | brelse (i : Nat)
  | released
  | bpin (i : Nat)
  | bunpin (i : Nat)

/-- The call is made by a process outside the buffer cache. -/
def BioCall.fresh : BioCall → Bool
  | .acquired | .filled | .released => false
  | _ => true

namespace BioState

/-- What the step does. -/
def call (s : BioState) (p : Nat) : BioCall → Option BioState
  | .bread dev blockno => s.bget p dev blockno
  | .acquired => s.acquiresleep p
  | .filled => s.bread p
  | .edit i data => s.edit p i data
  | .bwrite i => some (s.bwrite p i)
  | .brelse i => some (s.releasesleep p i)
  | .released => s.brelse p
  | .bpin i => some (s.bpin i)
  | .bunpin i => some (s.bunpin i)

/-- One step of a process.  After a panic nothing happens. -/
def next (s : BioState) : Nat × BioCall → Option BioState
  | (p, c) => if s.panic = none ∧ (c.fresh → s.pc p = .idle) then s.call p c else none

/-- Processes `0` to `n - 1` name existing buffers and a device, release the locks they hold and
the pins that were made. -/
def Proper (n : Nat) (s : BioState) : Nat × BioCall → Prop
  | (p, c) => p < n ∧ match c with
    | .bread dev _ => dev ≠ 0
    | .acquired | .filled | .released => True
    | .edit i _ | .bwrite i | .bpin i => i < NBUF
    | .brelse i => i < NBUF ∧ (s.buf i).lock = some p
    | .bunpin i => i < NBUF ∧ 0 < s.pins i

end BioState

/-- A process waiting for the lock of buffer `i`, or between giving it back and `refcnt--`. -/
def BioPc.refs (i : Nat) : BioPc → Nat
  | .waiting j | .releasing j => if j = i then 1 else 0
  | .idle | .locked _ => 0

namespace BioState

/-- The references of process `p` to buffer `i`: it holds the buffer, waits for it, or is about
to drop its reference. -/
def uses (s : BioState) (i p : Nat) : Nat :=
  (if (s.buf i).lock = some p then 1 else 0) + (s.pc p).refs i

/-- The references of `n` processes to a buffer, and its pins. -/
def references (n : Nat) (s : BioState) (i : Nat) : Nat :=
  ∑ p ∈ Finset.range n, s.uses i p + s.pins i

/-- What the cache keeps, with the buffers from `head.next` to `head.prev` listed. -/
structure Ok (n : Nat) (s : BioState) (lru : List Nat) : Prop where
  ring : s.links.IsRing HEAD lru
  all : lru.Perm (List.range NBUF)
  unique : ∀ i j, i < NBUF → j < NBUF → (s.buf i).dev ≠ 0 →
    (s.buf j).names (s.buf i).dev (s.buf i).blockno → i = j
  refs : ∀ i, i < NBUF → (s.buf i).refcnt = uint
    ((s.buf i).lock.toList.length + ∑ p ∈ Finset.range n, (s.pc p).refs i + s.pins i)
  holder : ∀ i p, (s.buf i).lock = some p → p < n
  inRange : ∀ p i, s.pc p = .waiting i ∨ s.pc p = .locked i ∨ s.pc p = .releasing i → i < NBUF

variable {n p i dev blockno : Nat} {s s' : BioState} {lru lru' : List Nat} {b : Buf} {pc : BioPc}

theorem Ok.length (h : s.Ok n lru) : lru.length = NBUF := by
  rw [h.all.length_eq, length_range]

theorem Ok.mem (h : s.Ok n lru) : i ∈ lru ↔ i < NBUF := by
  rw [h.all.mem_iff, mem_range]

theorem ok_binit (links : Links Nat) (disk : Nat → Block) :
    (binit links disk).Ok n (List.range NBUF).reverse where
  ring := by
    have hout : ∀ i ∈ List.range NBUF, i ∉ [HEAD] := by
      intro i hi hmem
      exact Nat.ne_of_lt (mem_range.mp hi) (mem_singleton.mp hmem)
    have hring := (Links.isRing_nil links HEAD).foldl_insertAfter nodup_range hout
    rwa [append_nil] at hring
  all := reverse_perm _
  unique := fun _ _ _ _ hdev _ => absurd rfl hdev
  refs := by
    intro i _
    have hsum : ∑ _p ∈ Finset.range n, BioPc.idle.refs i = 0 := Finset.sum_const_zero
    simp only [binit, hsum]
    rfl
  holder := fun _ _ hlock => nomatch hlock
  inRange := by
    rintro p i (hpc | hpc | hpc) <;> cases hpc

/-! ## The searches of `bget` -/

/-- The two loops of `bget` end, and find what a search through the list finds. -/
theorem bget_eq (hring : s.links.IsRing HEAD lru) (hlength : lru.length = NBUF) :
    s.bget p dev blockno =
      match lru.find? fun i => decide ((s.buf i).names dev blockno) with
      | some i => some (s.found p i)
      | none =>
        match lru.reverse.find? fun i => decide ((s.buf i).refcnt = 0) with
        | some i => some (s.recycled p i dev blockno)
        | none => some { s with panic := some "bget: no buffers" } := by
  have hfuel : lru.length < NBUF + 1 := by omega
  rw [bget, hring.search_next hfuel, hring.search_prev hfuel]
  cases lru.find? fun i => decide ((s.buf i).names dev blockno) with
  | some i => rfl
  | none => cases lru.reverse.find? fun i => decide ((s.buf i).refcnt = 0) <;> rfl

/-- The buffer found going back from `head.prev`. -/
theorem exists_of_find_reverse {test : Nat → Bool} (h : lru.reverse.find? test = some i) :
    ∃ newer older, lru = newer ++ i :: older ∧ test i ∧ ∀ j ∈ older, ¬ test j := by
  obtain ⟨hi, older, newer, hlru, holder⟩ := find?_eq_some_iff_append.mp h
  refine ⟨newer.reverse, older.reverse, ?_, hi, fun j hj => ?_⟩
  · rw [← reverse_reverse lru, hlru, reverse_append, reverse_cons,
      append_assoc, singleton_append]
  · simpa using holder j (mem_reverse.mp hj)

/-- What `bget` does: it returns the buffer of the block; without one it takes, of the buffers
without references, the one nearest `head.prev`; without such a buffer it panics. -/
inductive Bget (s : BioState) (lru : List Nat) (p dev blockno : Nat) : BioState → Prop
  | cached (i : Nat) : i < NBUF → (s.buf i).names dev blockno →
      Bget s lru p dev blockno (s.found p i)
  | recycle (newer older : List Nat) (i : Nat) : i < NBUF →
      (∀ j < NBUF, ¬ (s.buf j).names dev blockno) → lru = newer ++ i :: older →
      (s.buf i).refcnt = 0 → (∀ j ∈ older, (s.buf j).refcnt ≠ 0) →
      Bget s lru p dev blockno (s.recycled p i dev blockno)
  | full : (∀ j < NBUF, ¬ (s.buf j).names dev blockno) → (∀ j < NBUF, (s.buf j).refcnt ≠ 0) →
      Bget s lru p dev blockno { s with panic := some "bget: no buffers" }

theorem Ok.bget (h : s.Ok n lru) (p dev blockno : Nat) :
    ∃ s', s.bget p dev blockno = some s' ∧ Bget s lru p dev blockno s' := by
  rw [bget_eq h.ring h.length]
  cases hfind : lru.find? fun i => decide ((s.buf i).names dev blockno) with
  | some i =>
    have hnames : (s.buf i).names dev blockno := by
      simpa using find?_some hfind
    exact ⟨_, rfl, .cached i (h.mem.mp (mem_of_find?_eq_some hfind)) hnames⟩
  | none =>
    have hnone : ∀ j < NBUF, ¬ (s.buf j).names dev blockno := fun j hj hnames =>
      find?_eq_none.mp hfind j (h.mem.mpr hj) (decide_eq_true hnames)
    cases hback : lru.reverse.find? fun i => decide ((s.buf i).refcnt = 0) with
    | some i =>
      obtain ⟨newer, older, hlru, hi, holder⟩ := exists_of_find_reverse hback
      have hmem : i ∈ lru := hlru ▸ mem_append_right newer mem_cons_self
      refine ⟨_, rfl, .recycle newer older i (h.mem.mp hmem) hnone hlru (of_decide_eq_true hi) ?_⟩
      exact fun j hj hzero => holder j hj (decide_eq_true hzero)
    | none =>
      refine ⟨_, rfl, .full hnone fun j hj hzero => ?_⟩
      exact find?_eq_none.mp hback j (mem_reverse.mpr (h.mem.mpr hj))
        (decide_eq_true hzero)

/-! ## Every step keeps the cache well formed -/

section

variable (h : s.Ok n lru)
include h

theorem Ok.change {pins : Nat} (hp : p < n) (hi : i < NBUF) (hbuf : s'.buf = update s.buf i b)
    (hpc : s'.pc = update s.pc p pc) (hpins : s'.pins = update s.pins i pins)
    (hring : s'.links.IsRing HEAD lru') (hall : lru'.Perm (List.range NBUF))
    (hfresh : b.dev ≠ 0 → ∀ j < NBUF, j ≠ i → ¬ (s.buf j).names b.dev b.blockno)
    (hother : ∀ j, j ≠ i → pc.refs j = (s.pc p).refs j)
    (hrefs : ∀ x x', x' + (s.pc p).refs i = x + pc.refs i →
      (s.buf i).refcnt = uint ((s.buf i).lock.toList.length + x + s.pins i) →
      b.refcnt = uint (b.lock.toList.length + x' + pins)) (hholder : ∀ q, b.lock = some q → q < n)
    (hrange : ∀ j, pc = .waiting j ∨ pc = .locked j ∨ pc = .releasing j → j < NBUF) :
    s'.Ok n lru' := by
  have hsum : ∀ j, ∑ q ∈ Finset.range n, (s'.pc q).refs j + (s.pc p).refs j =
      ∑ q ∈ Finset.range n, (s.pc q).refs j + pc.refs j := by
    intro j
    have hsame : ∀ q ∈ Finset.range n, q ≠ p → (s'.pc q).refs j = (s.pc q).refs j :=
      fun q _ hne => by rw [hpc, update_of_ne hne]
    have hchange := Tally.sum_change (Finset.mem_range.mpr hp) hsame
    rwa [hpc, update_self, ← hpc] at hchange
  refine ⟨hring, hall, ?_, ?_, ?_, ?_⟩
  · intro j k hj hk hdev hnames
    rw [hbuf] at hdev hnames
    by_cases hji : j = i <;> by_cases hki : k = i
    · rw [hji, hki]
    · rw [hji, update_self, update_of_ne hki] at hnames
      rw [hji, update_self] at hdev
      exact absurd hnames (hfresh hdev k hk hki)
    · rw [hki, update_self, update_of_ne hji] at hnames
      rw [update_of_ne hji, ← hnames.1] at hdev
      exact absurd ⟨hnames.1.symm, hnames.2.symm⟩ (hfresh hdev j hj hji)
    · rw [update_of_ne hji, update_of_ne hki] at hnames
      rw [update_of_ne hji] at hdev
      exact h.unique j k hj hk hdev hnames
  · intro j hj
    rw [hbuf, hpins]
    by_cases hji : j = i
    · rw [hji, update_self, update_self]
      exact hrefs _ _ (hsum i) (h.refs i hi)
    · rw [update_of_ne hji, update_of_ne hji, h.refs j hj]
      have hsame := hsum j
      rw [hother j hji] at hsame
      rw [Nat.add_right_cancel hsame]
  · intro j q hlock
    rw [hbuf] at hlock
    by_cases hji : j = i
    · rw [hji, update_self] at hlock
      exact hholder q hlock
    · rw [update_of_ne hji] at hlock
      exact h.holder j q hlock
  · intro q j hq
    rw [hpc] at hq
    by_cases hqp : q = p
    · rw [hqp, update_self] at hq
      exact hrange j hq
    · rw [update_of_ne hqp] at hq
      exact h.inRange q j hq

/-- A step that leaves the block of the buffer, the pins and the links as they are. -/
theorem Ok.own (hp : p < n) (hi : i < NBUF) (hnames : b.names (s.buf i).dev (s.buf i).blockno)
    (hother : ∀ j, j ≠ i → pc.refs j = (s.pc p).refs j)
    (hrefs : ∀ x x', x' + (s.pc p).refs i = x + pc.refs i →
      (s.buf i).refcnt = uint ((s.buf i).lock.toList.length + x + s.pins i) →
      b.refcnt = uint (b.lock.toList.length + x' + s.pins i))
    (hholder : ∀ q, b.lock = some q → q < n)
    (hrange : ∀ j, pc = .waiting j ∨ pc = .locked j ∨ pc = .releasing j → j < NBUF) :
    ((s.setBuf i b).setPc p pc).Ok n lru := by
  refine h.change hp hi rfl rfl (update_eq_self i s.pins).symm h.ring h.all ?_ hother hrefs
    hholder hrange
  intro hdev j hj hne hj'
  rw [hnames.1] at hdev
  rw [hnames.1, hnames.2] at hj'
  exact hne (h.unique i j hi hj hdev hj').symm

theorem Ok.setPanic (panic : Option String) : Ok n { s with panic } lru :=
  ⟨h.ring, h.all, h.unique, h.refs, h.holder, h.inRange⟩

theorem Ok.found (hp : p < n) (hidle : s.pc p = .idle) (hi : i < NBUF) :
    (s.found p i).Ok n lru := by
  refine h.own hp hi ⟨rfl, rfl⟩ (fun j hj => ?_) (fun x x' hx hrefs => ?_) (h.holder i)
    fun j hj => ?_
  · rw [hidle, BioPc.refs, if_neg hj.symm, BioPc.refs]
  · rw [hidle, BioPc.refs, BioPc.refs, if_pos rfl] at hx
    rw [uint] at hrefs
    simp only [uint]
    omega
  · rcases hj with hj | hj | hj <;> cases hj
    exact hi

theorem Ok.recycled (hp : p < n) (hidle : s.pc p = .idle) (hi : i < NBUF)
    (hzero : (s.buf i).refcnt = 0) (hnone : ∀ j < NBUF, ¬ (s.buf j).names dev blockno) :
    (s.recycled p i dev blockno).Ok n lru := by
  refine h.change hp hi rfl rfl (update_eq_self i s.pins).symm h.ring h.all
    (fun _ j hj _ => hnone j hj) (fun j hj => ?_) (fun x x' hx hrefs => ?_) (h.holder i)
    fun j hj => ?_
  · rw [hidle, BioPc.refs, if_neg hj.symm, BioPc.refs]
  · rw [hidle, BioPc.refs, BioPc.refs, if_pos rfl] at hx
    rw [uint, hzero] at hrefs
    simp only [uint]
    omega
  · rcases hj with hj | hj | hj <;> cases hj
    exact hi

theorem Ok.acquiresleep (hp : p < n) (hs : s.acquiresleep p = some s') : s'.Ok n lru := by
  rw [BioState.acquiresleep] at hs
  split at hs
  case h_1 i hpc =>
    have hi := h.inRange p i (.inl hpc)
    obtain ⟨hlock, rfl⟩ := Machine.of_guard hs
    refine h.own hp hi ⟨rfl, rfl⟩ (fun j hj => ?_) (fun x x' hx hrefs => ?_)
      (fun q hq => some.inj hq ▸ hp) fun j hj => ?_
    · rw [hpc, BioPc.refs, BioPc.refs, if_neg hj.symm]
    · rw [hpc, BioPc.refs, BioPc.refs, if_pos rfl] at hx
      rw [hrefs, hlock]
      simp only [Option.toList, length_nil, length_singleton]
      congr 1
      omega
    · rcases hj with hj | hj | hj <;> cases hj
      exact hi
  case h_2 => cases hs

theorem Ok.bread (hp : p < n) (hs : s.bread p = some s') : s'.Ok n lru := by
  rw [BioState.bread] at hs
  split at hs
  case h_1 i hpc =>
    cases hs
    refine h.own hp (h.inRange p i (.inr (.inl hpc))) ?_ (fun j hj => ?_) (fun x x' hx hrefs => ?_)
      (fun q hq => ?_) fun j hj => ?_
    · split <;> exact ⟨rfl, rfl⟩
    · rw [hpc, BioPc.refs, BioPc.refs]
    · rw [hpc, BioPc.refs, BioPc.refs] at hx
      obtain rfl : x' = x := hx
      split <;> exact hrefs
    · split at hq <;> exact h.holder i q hq
    · rcases hj with hj | hj | hj <;> cases hj
  case h_2 => cases hs

end

theorem setPc_eq_self : s.setPc p (s.pc p) = s := by
  rw [setPc, update_eq_self]

theorem Ok.edit (h : s.Ok n lru) (hp : p < n) (hi : i < NBUF) {data : Block}
    (hs : s.edit p i data = some s') : s'.Ok n lru := by
  obtain ⟨-, rfl⟩ := Machine.of_guard hs
  have hkept : ((s.setBuf i { s.buf i with data }).setPc p (s.pc p)).Ok n lru := by
    refine h.own hp hi ⟨rfl, rfl⟩ (fun _ _ => rfl) (fun x x' hx hrefs => ?_) (h.holder i)
      fun j hj => h.inRange p j hj
    obtain rfl : x' = x := Nat.add_right_cancel hx
    exact hrefs
  rwa [show s.pc p = (s.setBuf i { s.buf i with data }).pc p from rfl, setPc_eq_self] at hkept

theorem Ok.bwrite (h : s.Ok n lru) : (s.bwrite p i).Ok n lru := by
  rw [BioState.bwrite]
  split
  · exact ⟨h.ring, h.all, h.unique, h.refs, h.holder, h.inRange⟩
  · exact h.setPanic _

theorem Ok.releasesleep (h : s.Ok n lru) (hp : p < n) (hidle : s.pc p = .idle) (hi : i < NBUF)
    (hlock : (s.buf i).lock = some p) : (s.releasesleep p i).Ok n lru := by
  rw [BioState.releasesleep, if_pos hlock]
  refine h.own hp hi ⟨rfl, rfl⟩ (fun j hj => ?_) (fun x x' hx hrefs => ?_) nofun fun j hj => ?_
  · rw [hidle, BioPc.refs, if_neg hj.symm, BioPc.refs]
  · rw [hidle, BioPc.refs, BioPc.refs, if_pos rfl] at hx
    rw [hrefs, hlock]
    simp only [Option.toList, length_nil, length_singleton]
    congr 1
    omega
  · rcases hj with hj | hj | hj <;> cases hj
    exact hi

/-- One reference less. -/
theorem uintPred_uint {x y : Nat} (h : y + 1 = x) : uintPred (uint x) = uint y := by
  rw [uintPred, uint, uint, uint]
  omega

section

variable (h : s.Ok n lru) (hp : p < n)
include h hp

theorem Ok.brelse (hs : s.brelse p = some s') : ∃ lru', s'.Ok n lru' := by
  rw [BioState.brelse] at hs
  split at hs
  case h_1 i hpc =>
    have hi := h.inRange p i (.inr (.inr hpc))
    have hdrop : ((s.setBuf i { s.buf i with refcnt := uintPred (s.buf i).refcnt }).setPc p
        .idle).Ok n lru := by
      refine h.own hp hi ⟨rfl, rfl⟩ (fun j hj => ?_) (fun x x' hx hrefs => ?_) (h.holder i)
        fun j hj => ?_
      · rw [hpc, BioPc.refs, BioPc.refs, if_neg hj.symm]
      · rw [hpc, BioPc.refs, BioPc.refs, if_pos rfl] at hx
        rw [hrefs]
        refine uintPred_uint ?_
        dsimp only
        omega
      · rcases hj with hj | hj | hj <;> cases hj
    have hmem := h.mem.mpr hi
    have hs' := some.inj hs
    subst hs'
    split
    · refine ⟨i :: lru.erase i, hdrop.ring.toFront hmem, ?_, hdrop.unique, hdrop.refs,
        hdrop.holder, hdrop.inRange⟩
      exact (perm_cons_erase hmem).symm.trans h.all
    · exact ⟨lru, hdrop⟩
  case h_2 => cases hs

/-- A pin more or less. -/
theorem Ok.pin (hi : i < NBUF) {refcnt pins : Nat}
    (hrefs : ∀ x, (s.buf i).refcnt = uint (x + s.pins i) → refcnt = uint (x + pins)) :
    Ok n { s.setBuf i { s.buf i with refcnt } with pins := update s.pins i pins } lru := by
  refine h.change hp hi rfl (update_eq_self p s.pc).symm rfl h.ring h.all
    (fun hdev j hj hne hnames => hne (h.unique i j hi hj hdev hnames).symm) (fun _ _ => rfl)
    (fun x x' hx hold => ?_) (h.holder i) fun j hj => h.inRange p j hj
  obtain rfl : x' = x := Nat.add_right_cancel hx
  exact hrefs _ hold

theorem Ok.bpin (hi : i < NBUF) : (s.bpin i).Ok n lru := by
  refine h.pin hp hi fun x hx => ?_
  rw [hx, uint, uint, uint]
  omega

theorem Ok.bunpin (hi : i < NBUF) (hpins : 0 < s.pins i) : (s.bunpin i).Ok n lru := by
  refine h.pin hp hi fun x hx => ?_
  rw [hx]
  exact uintPred_uint (by omega)

end

theorem Ok.next (h : s.Ok n lru) {e : Nat × BioCall} (he : s.Proper n e)
    (hs : s.next e = some s') : ∃ lru', s'.Ok n lru' := by
  obtain ⟨p, c⟩ := e
  obtain ⟨hp, hc⟩ := he
  obtain ⟨hready, hs⟩ := ite_none_right_eq_some.mp hs
  cases c with
  | bread dev blockno =>
    have hidle := hready.2 rfl
    obtain ⟨s1, hget, hspec⟩ := h.bget p dev blockno
    obtain rfl := some.inj (hget.symm.trans hs)
    cases hspec with
    | cached i hi => exact ⟨lru, h.found hp hidle hi⟩
    | recycle newer older i hi hnone _ hzero =>
      exact ⟨lru, h.recycled hp hidle hi hzero hnone⟩
    | full => exact ⟨lru, h.setPanic _⟩
  | acquired => exact ⟨lru, h.acquiresleep hp hs⟩
  | filled => exact ⟨lru, h.bread hp hs⟩
  | edit i data => exact ⟨lru, h.edit hp hc hs⟩
  | bwrite i =>
    obtain rfl := some.inj hs
    exact ⟨lru, h.bwrite⟩
  | brelse i =>
    obtain rfl := some.inj hs
    exact ⟨lru, h.releasesleep hp (hready.2 rfl) hc.1 hc.2⟩
  | released => exact h.brelse hp hs
  | bpin i =>
    obtain rfl := some.inj hs
    exact ⟨lru, h.bpin hp hc⟩
  | bunpin i =>
    obtain rfl := some.inj hs
    exact ⟨lru, h.bunpin hp hc.1 hc.2⟩

/-- No step but a recycling one changes the block of a buffer. -/
theorem Ok.same_block (h : s.Ok n lru) {e : Nat × BioCall} (hs : s.next e = some s') (j : Nat)
    (hj : (s.buf j).refcnt ≠ 0) : (s'.buf j).names (s.buf j).dev (s.buf j).blockno := by
  have hset : ∀ i b, (i = j → b.names (s.buf i).dev (s.buf i).blockno) →
      (update s.buf i b j).names (s.buf j).dev (s.buf j).blockno := by
    intro i b hb
    by_cases hij : j = i
    · subst hij
      rw [update_self]
      exact hb rfl
    · rw [update_of_ne hij]
      exact ⟨rfl, rfl⟩
  obtain ⟨p, c⟩ := e
  rw [BioState.next] at hs
  split at hs
  case isFalse => cases hs
  cases c with
  | bread dev blockno =>
    obtain ⟨s1, hget, hspec⟩ := h.bget p dev blockno
    obtain rfl := some.inj (hget.symm.trans hs)
    cases hspec with
    | cached i => exact hset i _ fun _ => ⟨rfl, rfl⟩
    | recycle newer older i hi hnone _ hzero =>
      exact hset i _ fun hij => absurd (hij ▸ hzero) hj
    | full => exact ⟨rfl, rfl⟩
  | acquired =>
    rw [call, BioState.acquiresleep] at hs
    split at hs
    · obtain ⟨-, rfl⟩ := Machine.of_guard hs
      exact hset _ _ fun _ => ⟨rfl, rfl⟩
    · cases hs
  | filled =>
    rw [call, BioState.bread] at hs
    split at hs
    · cases hs
      refine hset _ _ fun _ => ?_
      split <;> exact ⟨rfl, rfl⟩
    · cases hs
  | edit i data =>
    obtain ⟨-, rfl⟩ := Machine.of_guard hs
    exact hset _ _ fun _ => ⟨rfl, rfl⟩
  | bwrite i =>
    obtain rfl := some.inj hs
    rw [BioState.bwrite]
    split <;> exact ⟨rfl, rfl⟩
  | brelse i =>
    obtain rfl := some.inj hs
    rw [BioState.releasesleep]
    split
    · exact hset _ _ fun _ => ⟨rfl, rfl⟩
    · exact ⟨rfl, rfl⟩
  | released =>
    rw [call, BioState.brelse] at hs
    split at hs
    · have hs' := some.inj hs
      subst hs'
      split <;> exact hset _ _ fun _ => ⟨rfl, rfl⟩
    · cases hs
  | bpin i =>
    obtain rfl := some.inj hs
    exact hset _ _ fun _ => ⟨rfl, rfl⟩
  | bunpin i =>
    obtain rfl := some.inj hs
    exact hset _ _ fun _ => ⟨rfl, rfl⟩

/-- The states of a run of `n` processes since `binit`. -/
def Reached (n : Nat) : BioState → Prop :=
  Machine.Reach next (Proper n) fun s => ∃ links disk, s = binit links disk

theorem Reached.ok (h : Reached n s) : ∃ lru, s.Ok n lru := by
  refine Machine.Reach.invariant (P := fun s => ∃ lru, s.Ok n lru) ?_ ?_ h
  · rintro s ⟨links, disk, rfl⟩
    exact ⟨_, ok_binit links disk⟩
  · rintro s e s' ⟨lru, hok⟩ he hs
    exact hok.next he hs

theorem Ok.references_eq (h : s.Ok n lru) (i : Nat) : s.references n i =
    (s.buf i).lock.toList.length + ∑ p ∈ Finset.range n, (s.pc p).refs i + s.pins i := by
  have hholders : ∑ p ∈ Finset.range n, (if (s.buf i).lock = some p then 1 else 0) =
      (s.buf i).lock.toList.length := by
    cases hlock : (s.buf i).lock with
    | none => exact Finset.sum_const_zero
    | some q =>
      simp only [some.injEq, Finset.sum_ite_eq, Finset.mem_range, h.holder i q hlock,
        if_true, Option.toList, length_singleton]
  rw [references, ← hholders, ← Finset.sum_add_distrib]
  rfl

theorem next_bread (hpanic : s.panic = none) (hidle : s.pc p = .idle) :
    s.next (p, .bread dev blockno) = s.bget p dev blockno := by
  rw [next, if_pos ⟨hpanic, fun _ => hidle⟩, call]

/-- At any time the links form one ring of the head and all buffers, no block of a device is in
two buffers, `refcnt` counts the references, no step gives a buffer with references to another
block, and a `bread` finds the buffer of the block or recycles the unreferenced buffer nearest
`head.prev`. -/
theorem cache_representation (h : Reached n s) :
    (∃ lru, s.links.IsRing HEAD lru ∧ lru.Perm (List.range NBUF) ∧
      ∀ p dev blockno, s.panic = none → s.pc p = .idle →
        ∃ s', s.next (p, .bread dev blockno) = some s' ∧ Bget s lru p dev blockno s') ∧
    (∀ dev blockno, dev ≠ 0 → ∀ i < NBUF, ∀ j < NBUF, (s.buf i).names dev blockno →
      (s.buf j).names dev blockno → i = j) ∧
    (∀ i < NBUF, (s.buf i).refcnt = uint (s.references n i) ∧
      (s.references n i < 2 ^ 32 → (s.buf i).refcnt = s.references n i)) ∧
    ∀ e s', s.Proper n e → s.next e = some s' → ∀ i < NBUF, 0 < (s.buf i).refcnt →
      (s'.buf i).names (s.buf i).dev (s.buf i).blockno := by
  obtain ⟨lru, hok⟩ := h.ok
  refine ⟨⟨lru, hok.ring, hok.all, fun p dev blockno hpanic hidle => ?_⟩, ?_, fun i hi => ?_, ?_⟩
  · rw [next_bread hpanic hidle]
    exact hok.bget p dev blockno
  · rintro _ _ hdev i hi j hj ⟨rfl, rfl⟩ hnames
    exact hok.unique i j hi hj hdev hnames
  · rw [hok.refs i hi, ← hok.references_eq]
    exact ⟨rfl, Nat.mod_eq_of_lt⟩
  · exact fun e s' _ hs i _ hpos => hok.same_block hs i (Nat.ne_of_gt hpos)

/-- Two processes ask for one block: the buffer that was linked in first is recycled once, and
both refer to it. -/
theorem cache_representation_shared : ∃ s, Reached 2 s ∧ s.pc 0 = .waiting 0 ∧
    s.pc 1 = .waiting 0 ∧ (s.buf 0).names 1 5 ∧ (s.buf 0).refcnt = 2 ∧
    (s.buf 0).refcnt = uint (s.references 2 0) := by
  let s0 := binit ⟨id, id⟩ fun _ _ => 0
  let s1 := s0.recycled 0 0 1 5
  let s2 := s1.found 1 0
  have hok0 : s0.Ok 2 (List.range NBUF).reverse := ok_binit _ _
  have hok1 : s1.Ok 2 (List.range NBUF).reverse :=
    hok0.recycled (by decide) rfl (by decide) rfl fun j _ hnames => nomatch hnames.1
  have hnext0 : s0.next (0, .bread 1 5) = some s1 := by
    rw [next_bread rfl rfl, bget_eq hok0.ring hok0.length]
    rfl
  have hnext1 : s1.next (1, .bread 1 5) = some s2 := by
    rw [next_bread rfl rfl, bget_eq hok1.ring hok1.length]
    rfl
  have hreached : Reached 2 s2 := by
    refine .step (e := (1, .bread 1 5)) (.step (e := (0, .bread 1 5)) (.start ⟨_, _, rfl⟩) ?_ hnext0)
      ?_ hnext1
    · exact ⟨by decide, by decide⟩
    · exact ⟨by decide, by decide⟩
  exact ⟨s2, hreached, rfl, rfl, ⟨rfl, rfl⟩, rfl,
    ((cache_representation hreached).2.2.1 0 (by decide)).1⟩

/-! ## The list of `Bio` -/

/-- The cache of `Bio` has the same buffers, in the order of the links. -/
structure Shows (s : BioState) (c : Bcache) : Prop where
  buf : s.buf = c.buf
  ring : s.links.IsRing HEAD c.lru
  all : c.lru.Perm (List.range NBUF)

variable {c c' : Bcache}

theorem Shows.bget (h : s.Shows c) (hsmall : ∀ i, (s.buf i).refcnt + 1 < 2 ^ 32)
    (hc : c.bget p dev blockno = some (i, c')) :
    ∃ s', s.bget p dev blockno = some s' ∧ s'.pc p = .waiting i ∧ s'.Shows c' := by
  have hlength : c.lru.length = NBUF := by rw [h.all.length_eq, length_range]
  rw [bget_eq h.ring hlength, h.buf]
  rw [Bcache.bget] at hc
  cases hfind : c.lru.find? fun i => (c.buf i).names dev blockno with
  | some j =>
    rw [hfind] at hc
    cases hc
    refine ⟨_, rfl, update_self .., ?_, h.ring, h.all⟩
    have huint : uint ((c.buf i).refcnt + 1) = (c.buf i).refcnt + 1 := by
      rw [← h.buf]
      exact Nat.mod_eq_of_lt (hsmall i)
    simp only [found, setPc, setBuf, h.buf, huint]
    rfl
  | none =>
    rw [hfind] at hc
    cases hback : c.lru.reverse.find? fun i => (c.buf i).refcnt = 0 with
    | some j =>
      rw [hback] at hc
      cases hc
      refine ⟨_, rfl, update_self .., ?_, h.ring, h.all⟩
      simp only [recycled, setPc, setBuf, h.buf]
      rfl
    | none =>
      rw [hback] at hc
      cases hc

theorem Shows.brelse (h : s.Shows c) (hi : i < NBUF) (hpc : s.pc p = .releasing i)
    (hpos : 0 < (s.buf i).refcnt) (hsmall : (s.buf i).refcnt < 2 ^ 32)
    (hc : c.brelse p i = some c') : ∃ s', s.brelse p = some s' ∧ s'.Shows c' := by
  have hmem : i ∈ c.lru := h.all.mem_iff.mpr (mem_range.mpr hi)
  have hpred : uintPred (s.buf i).refcnt = (c.buf i).refcnt - 1 := by
    rw [← h.buf, uintPred, uint]
    omega
  obtain ⟨-, rfl⟩ := Machine.of_guard hc
  rw [BioState.brelse, hpc]
  refine ⟨_, rfl, ?_⟩
  simp only [hpred]
  split
  · refine ⟨?_, h.ring.toFront hmem, (perm_cons_erase hmem).symm.trans h.all⟩
    simp only [setPc, setBuf, h.buf]
    rfl
  · refine ⟨?_, h.ring, h.all⟩
    simp only [setPc, setBuf, h.buf]
    rfl

/-- From `binit` on, the searches along the links and the relinking of `brelse` are those of `Bio`
on its list, as long as no count wraps. -/
theorem links_refine_list : (∀ links disk, (binit links disk).Shows Bcache.binit) ∧
    ∀ (s : BioState) (c : Bcache), s.Shows c → (∀ i, (s.buf i).refcnt + 1 < 2 ^ 32) →
      (∀ p dev blockno i c', c.bget p dev blockno = some (i, c') →
        ∃ s', s.bget p dev blockno = some s' ∧ s'.pc p = .waiting i ∧ s'.Shows c') ∧
      (∀ p dev blockno, c.bget p dev blockno = none →
        s.bget p dev blockno = some { s with panic := some "bget: no buffers" }) ∧
      ∀ p i c', i < NBUF → s.pc p = .releasing i → 0 < (s.buf i).refcnt →
        c.brelse p i = some c' → ∃ s', s.brelse p = some s' ∧ s'.Shows c' := by
  refine ⟨fun links disk => ?_, fun s c h hsmall => ⟨fun _ _ _ _ _ => h.bget hsmall,
    fun p dev blockno hc => ?_,
    fun _ i _ hi hpc hpos => h.brelse hi hpc hpos (Nat.lt_of_succ_lt (hsmall i))⟩⟩
  · have hok := ok_binit (n := 0) links disk
    exact ⟨rfl, hok.ring, hok.all⟩
  rw [bget_eq h.ring (by rw [h.all.length_eq, length_range]), h.buf]
  rw [Bcache.bget] at hc
  cases hfind : c.lru.find? fun i => (c.buf i).names dev blockno with
  | some i => simp [hfind] at hc
  | none =>
    cases hback : c.lru.reverse.find? fun i => (c.buf i).refcnt = 0 with
    | some i => simp [hfind, hback] at hc
    | none => rfl

end BioState

end EAFITos
