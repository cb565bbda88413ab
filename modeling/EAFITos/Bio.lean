/-
The buffer cache of `kernel/bio.c`.  A buffer is named by its index in `bcache.buf`.
Every section under `bcache.lock`, every sleep-lock operation and every disk transfer
is one operation here, so that operations of several processes may be interleaved.
-/
import EAFITos.Proc
import EAFITos.Tally

namespace EAFITos

open Function List Option

def NBUF : Nat := 30

def ROOTDEV : Nat := 1

/-- The size of a block. -/
def BSIZE : Nat := 1024

/-- The contents of a disk block. -/
abbrev Block := ByteMem

/-- How far a process is with a buffer it asked for: waiting for the sleep lock, holding
it, holding it with the contents read, having changed them, or between the two halves
of `brelse`. -/
inductive Stage where
  | free
  | waiting
  | locked
  | ready
  | dirty
  | releasing
  deriving DecidableEq, Repr

/-- The references of one process at this stage. -/
def Stage.refs : Stage → Nat
  | .free => 0
  | _ => 1

def Stage.holding : Stage → Bool
  | .locked | .ready | .dirty => true
  | _ => false

def Stage.filled : Stage → Bool
  | .ready | .dirty => true
  | _ => false

/-- The process has asked for the buffer and has not begun to release it. -/
def Stage.active : Stage → Bool
  | .free | .releasing => false
  | _ => true

theorem Stage.holding_of_filled {stage : Stage} (h : stage.filled) : stage.holding := by
  cases stage <;> simp_all [Stage.filled, Stage.holding]

theorem Stage.active_of_filled {stage : Stage} (h : stage.filled) : stage.active := by
  cases stage <;> simp_all [Stage.filled, Stage.active]

theorem Stage.ne_free_of_holding {stage : Stage} (h : stage.holding) : stage ≠ .free := by
  rintro rfl
  cases h

/-- `struct buf`, with the holder of its sleep lock. -/
structure Buf where
  dev : Nat
  blockno : Nat
  valid : Bool
  refcnt : Nat
  lock : Option Nat
  data : Block

def Buf.names (b : Buf) (dev blockno : Nat) : Prop :=
  b.dev = dev ∧ b.blockno = blockno

instance (b : Buf) (dev blockno : Nat) : Decidable (b.names dev blockno) :=
  inferInstanceAs (Decidable (_ ∧ _))

/-- `bcache`.  `lru` lists the buffers from `head.next` to `head.prev`; `hold` says what
each process has of each buffer, and `pins` how often it is pinned. -/
structure Bcache where
  buf : Nat → Buf
  lru : List Nat
  hold : Nat → Nat → Stage
  pins : Nat → Nat

namespace Bcache

/-- `binit` on zeroed memory: each buffer is linked in at the head. -/
def binit : Bcache where
  buf := fun _ => ⟨0, 0, false, 0, none, fun _ => 0⟩
  lru := (List.range NBUF).reverse
  hold := fun _ _ => .free
  pins := fun _ => 0

def setBuf (c : Bcache) (i : Nat) (b : Buf) : Bcache :=
  { c with buf := update c.buf i b }

def setHold (c : Bcache) (p i : Nat) (stage : Stage) : Bcache :=
  { c with hold := update c.hold p (update (c.hold p) i stage) }

/-- The part of `bget` under `bcache.lock`: the buffer of the block, or the least recently
used one without references.  `none` is the panic `bget: no buffers`. -/
def bget (c : Bcache) (p dev blockno : Nat) : Option (Nat × Bcache) :=
  match c.lru.find? fun i => (c.buf i).names dev blockno with
  | some i =>
    let b := c.buf i
    some (i, (c.setBuf i { b with refcnt := b.refcnt + 1 }).setHold p i .waiting)
  | none =>
    match c.lru.reverse.find? fun i => (c.buf i).refcnt = 0 with
    | some i =>
      let b := c.buf i
      some (i, (c.setBuf i { b with dev, blockno, valid := false, refcnt := 1 }).setHold
        p i .waiting)
    | none => none

/-- `acquiresleep` on the buffer, once nobody holds it. -/
def acquiresleep (c : Bcache) (p i : Nat) : Option Bcache :=
  if c.hold p i = .waiting ∧ (c.buf i).lock = none then
    some ((c.setBuf i { c.buf i with lock := some p }).setHold p i .locked)
  else
    none

/-- The rest of `bread`: read the block from disk unless the buffer is valid. -/
def bread (c : Bcache) (disk : Nat → Block) (p i : Nat) : Option Bcache :=
  if c.hold p i = .locked then
    let b := c.buf i
    let filled := if b.valid then b else { b with valid := true, data := disk b.blockno }
    some ((c.setBuf i filled).setHold p i .ready)
  else
    none

/-- The holder replaces the contents of a buffer it has read. -/
def edit (c : Bcache) (p i : Nat) (data : Block) : Bcache :=
  (c.setBuf i { c.buf i with data }).setHold p i .dirty

/-- `brelse`, first half: `releasesleep`. -/
def releasesleep (c : Bcache) (p i : Nat) : Option Bcache :=
  if c.hold p i = .ready then
    some ((c.setBuf i { c.buf i with lock := none }).setHold p i .releasing)
  else
    none

/-- `brelse`, second half: drop the reference; a buffer without references becomes the
most recently used one. -/
def brelse (c : Bcache) (p i : Nat) : Option Bcache :=
  if c.hold p i = .releasing then
    let refcnt := (c.buf i).refcnt - 1
    let c' := (c.setBuf i { c.buf i with refcnt }).setHold p i .free
    some (if refcnt = 0 then { c' with lru := i :: c'.lru.erase i } else c')
  else
    none

def bpin (c : Bcache) (i : Nat) : Bcache :=
  { c.setBuf i { c.buf i with refcnt := (c.buf i).refcnt + 1 } with
    pins := update c.pins i (c.pins i + 1) }

def bunpin (c : Bcache) (i : Nat) : Bcache :=
  { c.setBuf i { c.buf i with refcnt := (c.buf i).refcnt - 1 } with
    pins := update c.pins i (c.pins i - 1) }

/-- `p` has asked for the block and not yet released it. -/
def Uses (c : Bcache) (p dev blockno : Nat) : Prop :=
  ∃ i ∈ List.range NBUF, c.hold p i ≠ .free ∧ (c.buf i).names dev blockno

instance (c : Bcache) (p dev blockno : Nat) : Decidable (c.Uses p dev blockno) :=
  inferInstanceAs (Decidable (∃ i ∈ List.range NBUF, _))

/-- `p` has no buffer. -/
def Idle (c : Bcache) (p : Nat) : Prop :=
  ∀ i ∈ List.range NBUF, c.hold p i = .free

instance (c : Bcache) (p : Nat) : Decidable (c.Idle p) :=
  inferInstanceAs (Decidable (∀ i ∈ List.range NBUF, _))

/-- Every `brelse` of `p` has returned. -/
def Returned (c : Bcache) (p : Nat) : Prop :=
  ∀ i ∈ List.range NBUF, c.hold p i ≠ .releasing

instance (c : Bcache) (p : Nat) : Decidable (c.Returned p) :=
  inferInstanceAs (Decidable (∀ i ∈ List.range NBUF, _))

/-- References of processes to a buffer. -/
def users (c : Bcache) (i : Nat) : Nat :=
  ∑ p ∈ Finset.range NPROC, (c.hold p i).refs

/-- What the cache keeps: every buffer once in the list, one buffer for a block,
reference counts that count processes and pins, and at most one holder for a buffer. -/
structure Ok (c : Bcache) : Prop where
  lru : c.lru.Perm (List.range NBUF)
  unique : ∀ i j, i < NBUF → j < NBUF → (c.buf i).dev ≠ 0 →
    (c.buf j).names (c.buf i).dev (c.buf i).blockno → i = j
  refs : ∀ i, i < NBUF → (c.buf i).refcnt = c.users i + c.pins i
  inUse : ∀ p i, c.hold p i ≠ .free → p < NPROC ∧ i < NBUF ∧ (c.buf i).dev ≠ 0
  lock : ∀ p i, (c.hold p i).holding ↔ (c.buf i).lock = some p
  valid : ∀ p i, (c.hold p i).filled → (c.buf i).valid

variable {c c' : Bcache} {p q i j dev blockno : Nat} {b : Buf} {stage : Stage}
  {disk : Nat → Block} {data : Block}

@[simp] theorem setBuf_self : (c.setBuf i b).buf i = b := by
  simp [setBuf]

theorem setBuf_of_ne (h : j ≠ i) : (c.setBuf i b).buf j = c.buf j := by
  simp [setBuf, update_of_ne h]

@[simp] theorem setBuf_hold : (c.setBuf i b).hold = c.hold := rfl

@[simp] theorem setBuf_pins : (c.setBuf i b).pins = c.pins := rfl

@[simp] theorem setHold_buf : (c.setHold p i stage).buf = c.buf := rfl

@[simp] theorem setHold_pins : (c.setHold p i stage).pins = c.pins := rfl

@[simp] theorem setHold_self : (c.setHold p i stage).hold p i = stage := by
  simp [setHold]

theorem setHold_of_ne_proc (h : q ≠ p) : (c.setHold p i stage).hold q = c.hold q :=
  update_of_ne h _ _

theorem setHold_of_ne (h : j ≠ i) : (c.setHold p i stage).hold q j = c.hold q j := by
  by_cases hq : q = p
  · subst hq
    simp [setHold, update_of_ne h]
  · rw [setHold_of_ne_proc hq]

theorem users_setHold_self (hp : p < NPROC) :
    (c.setHold p i stage).users i + (c.hold p i).refs = c.users i + stage.refs := by
  have hsame : ∀ q ∈ Finset.range NPROC, q ≠ p →
      ((c.setHold p i stage).hold q i).refs = (c.hold q i).refs :=
    fun q _ hne => by rw [setHold_of_ne_proc hne]
  have hchange := Tally.sum_change (Finset.mem_range.mpr hp) hsame
  rwa [setHold_self] at hchange

theorem users_setHold_of_ne (h : j ≠ i) : (c.setHold p i stage).users j = c.users j :=
  Finset.sum_congr rfl fun q _ => by rw [setHold_of_ne h]

theorem refs_le_users (hp : p < NPROC) : (c.hold p i).refs ≤ c.users i :=
  Finset.single_le_sum (fun q _ => Nat.zero_le (c.hold q i).refs) (Finset.mem_range.mpr hp)

theorem refs_of_ne_free (h : stage ≠ .free) : stage.refs = 1 := by
  cases stage <;> simp_all [Stage.refs]

/-! ## Operations keep the cache well formed -/

/-- What holds of every process and buffer after one of each changed. -/
theorem forall_set {P : Nat → Nat → Stage → Buf → Prop} (hown : P p i stage b)
    (hothers : ∀ q, q ≠ p → P q i (c.hold q i) b)
    (hrest : ∀ q j, j ≠ i → P q j (c.hold q j) (c.buf j)) (q j : Nat) :
    P q j (((c.setBuf i b).setHold p i stage).hold q j) ((c.setBuf i b).buf j) := by
  by_cases hj : j = i
  · subst hj
    rw [setBuf_self]
    by_cases hq : q = p
    · subst hq
      rwa [setHold_self]
    · rw [setHold_of_ne_proc hq]
      exact hothers q hq
  · rw [setBuf_of_ne hj, setHold_of_ne hj]
    exact hrest q j hj

section

variable (h : c.Ok)
include h

/-- A change of one buffer and of what one process has of it. -/
theorem Ok.set {n : Nat} (hp : p < NPROC) (hi : i < NBUF)
    (hfresh : ∀ j, j < NBUF → j ≠ i → ¬ (c.buf j).names b.dev b.blockno) (hdev : b.dev ≠ 0)
    (hrefs : b.refcnt + (c.hold p i).refs + c.pins i = (c.buf i).refcnt + stage.refs + n)
    (hown : stage.holding ↔ b.lock = some p)
    (hothers : ∀ q, q ≠ p → ((c.hold q i).holding ↔ b.lock = some q))
    (hvalid : stage.filled → b.valid) (hfilled : ∀ q, q ≠ p → (c.hold q i).filled → b.valid) :
    Ok { (c.setBuf i b).setHold p i stage with pins := update c.pins i n } := by
  refine ⟨h.lru, ?_, ?_, ?_, ?_, ?_⟩
  · intro j k hj hk hjdev hnames
    change ((c.setBuf i b).buf j).dev ≠ 0 at hjdev
    change ((c.setBuf i b).buf k).names ((c.setBuf i b).buf j).dev ((c.setBuf i b).buf j).blockno
      at hnames
    by_cases hji : j = i <;> by_cases hki : k = i
    · rw [hji, hki]
    · rw [hji, setBuf_self, setBuf_of_ne hki] at hnames
      exact absurd hnames (hfresh k hk hki)
    · rw [hki, setBuf_self, setBuf_of_ne hji] at hnames
      exact absurd ⟨hnames.1.symm, hnames.2.symm⟩ (hfresh j hj hji)
    · rw [setBuf_of_ne hji, setBuf_of_ne hki] at hnames
      rw [setBuf_of_ne hji] at hjdev
      exact h.unique j k hj hk hjdev hnames
  · intro j hj
    change ((c.setBuf i b).buf j).refcnt =
      ((c.setBuf i b).setHold p i stage).users j + update c.pins i n j
    by_cases hji : j = i
    · subst hji
      have husers : ((c.setBuf j b).setHold p j stage).users j + (c.hold p j).refs =
          c.users j + stage.refs := users_setHold_self hp
      have hold := h.refs j hj
      rw [setBuf_self, update_self]
      omega
    · rw [setBuf_of_ne hji, update_of_ne hji, users_setHold_of_ne hji]
      exact h.refs j hj
  · exact forall_set (P := fun q j stage b => stage ≠ .free → q < NPROC ∧ j < NBUF ∧ b.dev ≠ 0)
      (fun _ => ⟨hp, hi, hdev⟩) (fun q _ hq => ⟨(h.inUse q i hq).1, hi, hdev⟩)
      fun q j _ => h.inUse q j
  · exact forall_set (P := fun q _ stage b => stage.holding ↔ b.lock = some q) hown hothers
      fun q j _ => h.lock q j
  · exact forall_set (P := fun _ _ stage b => stage.filled → b.valid) hvalid hfilled
      fun q j _ => h.valid q j

theorem Ok.put (hp : p < NPROC) (hi : i < NBUF)
    (hfresh : ∀ j, j < NBUF → j ≠ i → ¬ (c.buf j).names b.dev b.blockno) (hdev : b.dev ≠ 0)
    (hrefs : b.refcnt + (c.hold p i).refs = (c.buf i).refcnt + stage.refs)
    (hown : stage.holding ↔ b.lock = some p)
    (hothers : ∀ q, q ≠ p → ((c.hold q i).holding ↔ b.lock = some q))
    (hvalid : stage.filled → b.valid) (hfilled : ∀ q, q ≠ p → (c.hold q i).filled → b.valid) :
    Ok ((c.setBuf i b).setHold p i stage) := by
  have hset := h.set hp hi hfresh hdev (congrArg (· + c.pins i) hrefs) hown hothers hvalid hfilled
  rwa [update_eq_self] at hset

theorem Ok.exclusive (hp : (c.hold p i).holding) (hq : (c.hold q i).holding) : q = p :=
  some.inj (((h.lock q i).mp hq).symm.trans ((h.lock p i).mp hp))

theorem Ok.names_unique (hi : i < NBUF) (hj : j < NBUF) (hdev : dev ≠ 0)
    (hnames : (c.buf i).names dev blockno) (hnames' : (c.buf j).names dev blockno) : i = j := by
  obtain ⟨rfl, rfl⟩ := hnames
  exact h.unique i j hi hj hdev hnames'

/-- A step of a process on a buffer it has asked for. -/
theorem Ok.own (hhold : c.hold p i ≠ .free) (hnames : b.names (c.buf i).dev (c.buf i).blockno)
    (hrefs : b.refcnt + 1 = (c.buf i).refcnt + stage.refs) (hown : stage.holding ↔ b.lock = some p)
    (hothers : ∀ q, q ≠ p → ((c.hold q i).holding ↔ b.lock = some q))
    (hvalid : stage.filled → b.valid) (hkept : (c.buf i).valid → b.valid) :
    Ok ((c.setBuf i b).setHold p i stage) := by
  obtain ⟨hp, hi, hdev⟩ := h.inUse p i hhold
  have hfresh : ∀ j, j < NBUF → j ≠ i → ¬ (c.buf j).names b.dev b.blockno := by
    intro j hj hne hj'
    rw [hnames.1, hnames.2] at hj'
    exact hne (h.unique i j hi hj hdev hj').symm
  exact h.put hp hi hfresh (hnames.1 ▸ hdev) (by rw [refs_of_ne_free hhold, hrefs]) hown hothers
    hvalid fun q _ hq => hkept (h.valid q i hq)

theorem Ok.acquiresleep (hc : c.acquiresleep p i = some c') : c'.Ok := by
  rw [Bcache.acquiresleep] at hc
  split at hc
  case isTrue hwait =>
    cases hc
    have hnone : ∀ q, ¬ (c.hold q i).holding := by
      intro q hq
      rw [(h.lock q i).mp hq] at hwait
      cases hwait.2
    refine h.own (by rw [hwait.1]; decide) ⟨rfl, rfl⟩ rfl (iff_of_true rfl rfl) (fun q hne => ?_)
      nofun id
    exact iff_of_false (hnone q) fun heq => hne (some.inj heq).symm
  case isFalse => cases hc

theorem Ok.bread (hc : c.bread disk p i = some c') : c'.Ok := by
  rw [Bcache.bread] at hc
  split at hc
  case isTrue hlocked =>
    cases hc
    have hlock := (h.lock p i).mp (by rw [hlocked]; rfl)
    refine h.own (by rw [hlocked]; decide) ?_ ?_ ?_ (fun q _ => ?_) ?_ ?_
    case refine_4 => split <;> exact h.lock q i
    all_goals cases hvalid : (c.buf i).valid
    all_goals simp [Buf.names, Stage.refs, Stage.holding, hlock, hvalid]
  case isFalse => cases hc

/-- A holder that has read the buffer changes its contents, or has written them back. -/
theorem Ok.refill (hfilled : (c.hold p i).filled) (hstage : stage.filled) :
    Ok ((c.setBuf i { c.buf i with data }).setHold p i stage) := by
  have hhold := Stage.holding_of_filled hfilled
  have hrefs : stage.refs = 1 :=
    refs_of_ne_free (Stage.ne_free_of_holding (Stage.holding_of_filled hstage))
  exact h.own (Stage.ne_free_of_holding hhold) ⟨rfl, rfl⟩ (by rw [hrefs])
    (iff_of_true (Stage.holding_of_filled hstage) ((h.lock p i).mp hhold)) (fun q _ => h.lock q i)
    (fun _ => h.valid p i hfilled) id

theorem Ok.edit (hfilled : (c.hold p i).filled) : (c.edit p i data).Ok :=
  h.refill hfilled rfl

end

theorem setBuf_eq_self : c.setBuf i (c.buf i) = c := by
  rw [setBuf, update_eq_self]

theorem Ok.setReady (h : c.Ok) (hfilled : (c.hold p i).filled) : (c.setHold p i .ready).Ok := by
  have hsame : Ok ((c.setBuf i (c.buf i)).setHold p i .ready) := h.refill hfilled rfl
  rwa [setBuf_eq_self] at hsame

theorem Ok.releasesleep (h : c.Ok) (hc : c.releasesleep p i = some c') : c'.Ok := by
  rw [Bcache.releasesleep] at hc
  split at hc
  case isTrue hready =>
    cases hc
    have hhold : (c.hold p i).holding := by rw [hready]; rfl
    refine h.own (Stage.ne_free_of_holding hhold) ⟨rfl, rfl⟩ rfl
      (iff_of_false Bool.false_ne_true (some_ne_none p).symm) (fun q hne => ?_)
      nofun id
    exact iff_of_false (fun hq => hne (h.exclusive hhold hq)) (some_ne_none q).symm
  case isFalse => cases hc

theorem Ok.pos_refcnt (h : c.Ok) (hhold : c.hold p i ≠ .free) : 0 < (c.buf i).refcnt := by
  obtain ⟨hp, hi, -⟩ := h.inUse p i hhold
  have husers : (c.hold p i).refs ≤ c.users i := refs_le_users hp
  rw [refs_of_ne_free hhold] at husers
  rw [h.refs i hi]
  omega

theorem Ok.of_lru (h : c.Ok) {lru : List Nat} (hlru : lru.Perm (List.range NBUF)) :
    Ok { c with lru := lru } :=
  ⟨hlru, h.unique, h.refs, h.inUse, h.lock, h.valid⟩

theorem Ok.brelse (h : c.Ok) (hc : c.brelse p i = some c') : c'.Ok := by
  rw [Bcache.brelse] at hc
  split at hc
  case isTrue hreleasing =>
    cases hc
    have hhold : c.hold p i ≠ .free := by rw [hreleasing]; decide
    have hpos := h.pos_refcnt hhold
    have hdrop : Ok ((c.setBuf i { c.buf i with refcnt := (c.buf i).refcnt - 1 }).setHold p i .free) :=
      h.own hhold ⟨rfl, rfl⟩ (Nat.sub_add_cancel hpos) (by rw [← h.lock p i, hreleasing]; rfl)
        (fun q _ => h.lock q i) nofun id
    split
    · have hmem : i ∈ c.lru := h.lru.mem_iff.mpr (mem_range.mpr (h.inUse p i hhold).2.1)
      exact hdrop.of_lru ((perm_cons_erase hmem).symm.trans h.lru)
    · exact hdrop
  case isFalse => cases hc

theorem setHold_eq_self : c.setHold p i (c.hold p i) = c := by
  rw [setHold, update_eq_self, update_eq_self]

section

variable (h : c.Ok) (hhold : c.hold p i ≠ .free)
include h hhold

/-- A change of the pins of a buffer in use, and of its reference count with them. -/
theorem Ok.repin {n refcnt : Nat} (hrefs : refcnt + c.pins i = (c.buf i).refcnt + n) :
    Ok { c.setBuf i { c.buf i with refcnt } with pins := update c.pins i n } := by
  obtain ⟨hp, hi, hdev⟩ := h.inUse p i hhold
  have hset : Ok { (c.setBuf i { c.buf i with refcnt }).setHold p i (c.hold p i) with
      pins := update c.pins i n } :=
    h.set hp hi (fun j hj hne hnames => hne (h.unique i j hi hj hdev hnames).symm) hdev
      (by dsimp only; omega) (h.lock p i) (fun q _ => h.lock q i) (h.valid p i)
      fun q _ => h.valid q i
  have hsame : (c.setBuf i { c.buf i with refcnt }).setHold p i (c.hold p i) =
      c.setBuf i { c.buf i with refcnt } := setHold_eq_self
  rwa [hsame] at hset

theorem Ok.bpin : (c.bpin i).Ok :=
  h.repin hhold (by omega)

theorem Ok.bunpin (hpins : 0 < c.pins i) : (c.bunpin i).Ok :=
  h.repin hhold (by have := h.pos_refcnt hhold; omega)

end

/-- What `bget` finds: the buffer of the block, or one without references. -/
inductive Got (c : Bcache) (p dev blockno i : Nat) (c' : Bcache) : Prop
  | hit : i ∈ c.lru → (c.buf i).names dev blockno →
      c' = (c.setBuf i { c.buf i with refcnt := (c.buf i).refcnt + 1 }).setHold p i .waiting →
      Got c p dev blockno i c'
  | recycled : i ∈ c.lru → (∀ j ∈ c.lru, ¬ (c.buf j).names dev blockno) → (c.buf i).refcnt = 0 →
      c' = (c.setBuf i { c.buf i with dev, blockno, valid := false, refcnt := 1 }).setHold
        p i .waiting → Got c p dev blockno i c'

theorem bget_got (h : c.bget p dev blockno = some (i, c')) : Got c p dev blockno i c' := by
  rw [bget] at h
  split at h
  case h_1 k hfind =>
    obtain ⟨rfl, rfl⟩ := Prod.mk.inj (some.inj h)
    exact .hit (mem_of_find?_eq_some hfind) (by simpa using find?_some hfind) rfl
  case h_2 hmiss =>
    split at h
    case h_1 k hfind =>
      obtain ⟨rfl, rfl⟩ := Prod.mk.inj (some.inj h)
      refine .recycled (mem_reverse.mp (mem_of_find?_eq_some hfind)) ?_
        (by simpa using find?_some hfind) rfl
      simpa using hmiss
    case h_2 => cases h

/-- `bget` panics only when no buffer has the block and every buffer is referenced. -/
theorem bget_eq_none (h : c.bget p dev blockno = none) :
    ∀ i ∈ c.lru, ¬ (c.buf i).names dev blockno ∧ (c.buf i).refcnt ≠ 0 := by
  rw [bget] at h
  split at h
  case h_1 => cases h
  case h_2 hmiss =>
    split at h
    case h_1 => cases h
    case h_2 hused =>
      intro i hi
      rw [find?_eq_none] at hmiss hused
      exact ⟨by simpa using hmiss i hi, by simpa using hused i (mem_reverse.mpr hi)⟩

theorem Ok.mem_lru (h : c.Ok) : i ∈ c.lru ↔ i < NBUF :=
  h.lru.mem_iff.trans mem_range

theorem Ok.hold_of_refcnt (h : c.Ok) (hi : i < NBUF) (hrefcnt : (c.buf i).refcnt = 0) :
    (∀ q, c.hold q i = .free) ∧ c.pins i = 0 := by
  refine ⟨fun q => ?_, ?_⟩
  · by_contra hhold
    have hpos := h.pos_refcnt hhold
    omega
  · have hrefs := h.refs i hi
    omega

theorem Ok.bget_free (h : c.Ok) (hnot : ¬ c.Uses p dev blockno) (hgot : Got c p dev blockno i c') :
    i < NBUF ∧ c.hold p i = .free := by
  cases hgot with
  | hit hmem hnames hc =>
    have hi := h.mem_lru.mp hmem
    refine ⟨hi, ?_⟩
    by_contra hhold
    exact hnot ⟨i, mem_range.mpr hi, hhold, hnames⟩
  | recycled hmem hmiss hrefcnt hc =>
    have hi := h.mem_lru.mp hmem
    exact ⟨hi, (h.hold_of_refcnt hi hrefcnt).1 p⟩

theorem Ok.bget (h : c.Ok) (hp : p < NPROC) (hdev : dev ≠ 0) (hnot : ¬ c.Uses p dev blockno)
    (hgot : Got c p dev blockno i c') : c'.Ok := by
  obtain ⟨hi, hfree⟩ := h.bget_free hnot hgot
  cases hgot with
  | hit hmem hnames hc =>
    have hidev : (c.buf i).dev ≠ 0 := hnames.1 ▸ hdev
    rw [hc]
    exact h.put hp hi (fun j hj hne hj' => hne (h.unique i j hi hj hidev hj').symm) hidev
      (by rw [hfree]; rfl) (by rw [← h.lock p i, hfree]; rfl) (fun q _ => h.lock q i)
      nofun fun q _ => h.valid q i
  | recycled hmem hmiss hrefcnt hc =>
    obtain ⟨hnone, hpins⟩ := h.hold_of_refcnt hi hrefcnt
    rw [hc]
    exact h.put hp hi (fun j hj _ hj' => hmiss j (h.mem_lru.mpr hj) hj') hdev
      (by rw [hfree, hrefcnt]; rfl) (by rw [← h.lock p i, hfree]; rfl) (fun q _ => h.lock q i)
      nofun (fun q _ hq => by rw [hnone q] at hq; cases hq)

/-! ## What steps leave alone -/

/-- The buffer is as much in use by `q` as before, for the same block and, where `q` has
changed it, with the same contents. -/
def Alike (c c' : Bcache) (q j : Nat) : Prop :=
  (c'.hold q j).active = (c.hold q j).active ∧ (c'.hold q j = .dirty ↔ c.hold q j = .dirty) ∧
    ((c.hold q j).active → (c'.buf j).names (c.buf j).dev (c.buf j).blockno) ∧
    (c.hold q j = .dirty → (c'.buf j).data = (c.buf j).data)

section

variable (hnames : ∀ q, (c.hold q i).active → b.names (c.buf i).dev (c.buf i).blockno)
  (hdata : ∀ q, q ≠ p → c.hold q i = .dirty → b.data = (c.buf i).data)
include hnames hdata

theorem alike_put (hother : q ≠ p ∨ j ≠ i) : Alike c ((c.setBuf i b).setHold p i stage) q j := by
  rw [Alike, setHold_buf]
  by_cases hji : j = i
  · subst hji
    have hq := hother.resolve_right fun hne => hne rfl
    rw [setBuf_self, setHold_of_ne_proc hq]
    exact ⟨rfl, Iff.rfl, hnames q, hdata q hq⟩
  · rw [setBuf_of_ne hji, setHold_of_ne hji]
    exact ⟨rfl, Iff.rfl, fun _ => ⟨rfl, rfl⟩, fun _ => rfl⟩

/-- A step between stages of equal use. -/
theorem alike_put_all (hactive : stage.active = (c.hold p i).active) (hclean : c.hold p i ≠ .dirty)
    (hstage : stage ≠ .dirty) (q j : Nat) : Alike c ((c.setBuf i b).setHold p i stage) q j := by
  by_cases hself : q = p ∧ j = i
  · obtain ⟨rfl, rfl⟩ := hself
    rw [Alike, setHold_buf, setBuf_self, setHold_self]
    exact ⟨hactive, iff_of_false hstage hclean, hnames q, fun hdirty => absurd hdirty hclean⟩
  · exact alike_put hnames hdata (not_and_or.mp hself)

end

theorem alike_acquiresleep (hc : c.acquiresleep p i = some c') (q j : Nat) : Alike c c' q j := by
  rw [acquiresleep] at hc
  split at hc
  case isTrue hwait =>
    cases hc
    refine alike_put_all ?_ ?_ ?_ ?_ ?_ q j
    · exact fun _ _ => ⟨rfl, rfl⟩
    · exact fun _ _ _ => rfl
    · rw [hwait.1]
      rfl
    · rw [hwait.1]
      decide
    · decide
  case isFalse => cases hc

theorem alike_bread (h : c.Ok) (hc : c.bread disk p i = some c') (q j : Nat) : Alike c c' q j := by
  rw [bread] at hc
  split at hc
  case isTrue hlocked =>
    cases hc
    refine alike_put_all (fun _ _ => ?_) (fun q hne hq => ?_) ?_ ?_ ?_ q j
    · split <;> exact ⟨rfl, rfl⟩
    · exact absurd (h.exclusive (by rw [hlocked]; rfl) (by rw [hq]; rfl)) hne
    · rw [hlocked]
      rfl
    · rw [hlocked]
      decide
    · decide
  case isFalse => cases hc

theorem alike_brelse (hc : c.brelse p i = some c') (q j : Nat) : Alike c c' q j := by
  obtain ⟨hreleasing, hc⟩ := ite_none_right_eq_some.mp hc
  have hput : Alike c
      ((c.setBuf i { c.buf i with refcnt := (c.buf i).refcnt - 1 }).setHold p i .free) q j := by
    refine alike_put_all ?_ ?_ ?_ ?_ ?_ q j
    · exact fun _ _ => ⟨rfl, rfl⟩
    · exact fun _ _ _ => rfl
    · rw [hreleasing]
      rfl
    · rw [hreleasing]
      decide
    · decide
  cases hc
  split
  · exact hput
  · exact hput

theorem alike_releasesleep (hc : c.releasesleep p i = some c') (hother : q ≠ p ∨ j ≠ i) :
    Alike c c' q j := by
  rw [releasesleep] at hc
  split at hc
  case isTrue =>
    cases hc
    refine alike_put ?_ ?_ hother
    · exact fun _ _ => ⟨rfl, rfl⟩
    · exact fun _ _ _ => rfl
  case isFalse => cases hc

theorem hold_releasesleep (hc : c.releasesleep p i = some c') :
    c.hold p i = .ready ∧ c'.hold p i = .releasing := by
  rw [releasesleep] at hc
  split at hc
  case isTrue hready =>
    cases hc
    exact ⟨hready, setHold_self⟩
  case isFalse => cases hc

theorem alike_got (h : c.Ok) (hnot : ¬ c.Uses p dev blockno) (hgot : Got c p dev blockno i c')
    (hother : q ≠ p ∨ j ≠ i) : Alike c c' q j := by
  obtain ⟨hi, hfree⟩ := h.bget_free hnot hgot
  cases hgot with
  | hit hmem hnames hc =>
    subst hc
    refine alike_put ?_ ?_ hother
    · exact fun _ _ => ⟨rfl, rfl⟩
    · exact fun _ _ _ => rfl
  | recycled hmem hmiss hrefcnt hc =>
    subst hc
    have hnone := (h.hold_of_refcnt hi hrefcnt).1
    refine alike_put ?_ ?_ hother
    · exact fun q hq => absurd hq (by rw [hnone q]; decide)
    · exact fun q _ hq => absurd hq (by rw [hnone q]; decide)

theorem hold_got (hgot : Got c p dev blockno i c') :
    c'.hold p i = .waiting ∧ (c'.buf i).names dev blockno := by
  cases hgot with
  | hit hmem hnames hc =>
    subst hc
    rw [setHold_self, setHold_buf, setBuf_self]
    exact ⟨rfl, hnames⟩
  | recycled hmem hmiss hrefcnt hc =>
    subst hc
    rw [setHold_self, setHold_buf, setBuf_self]
    exact ⟨rfl, rfl, rfl⟩

theorem alike_edit (h : c.Ok) (hfilled : (c.hold p i).filled) (hother : q ≠ p ∨ j ≠ i) :
    Alike c (c.edit p i data) q j := by
  refine alike_put ?_ (fun q hne hq => ?_) hother
  · exact fun _ _ => ⟨rfl, rfl⟩
  · exact absurd (h.exclusive (Stage.holding_of_filled hfilled) (by rw [hq]; rfl)) hne

theorem alike_setHold (hother : q ≠ p ∨ j ≠ i) : Alike c (c.setHold p i stage) q j := by
  have hput : Alike c ((c.setBuf i (c.buf i)).setHold p i stage) q j :=
    alike_put (fun _ _ => ⟨rfl, rfl⟩) (fun _ _ _ => rfl) hother
  rwa [setBuf_eq_self] at hput

/-- A change of a reference count and of pins. -/
theorem alike_repin {refcnt : Nat} {pins : Nat → Nat} (q j : Nat) :
    Alike c { c.setBuf i { c.buf i with refcnt } with pins := pins } q j := by
  have hsame : ((c.setBuf i { c.buf i with refcnt }).buf j).names (c.buf j).dev (c.buf j).blockno ∧
      ((c.setBuf i { c.buf i with refcnt }).buf j).data = (c.buf j).data := by
    by_cases hji : j = i
    · rw [hji, setBuf_self]
      exact ⟨⟨rfl, rfl⟩, rfl⟩
    · rw [setBuf_of_ne hji]
      exact ⟨⟨rfl, rfl⟩, rfl⟩
  exact ⟨rfl, Iff.rfl, fun _ => hsame.1, fun _ => hsame.2⟩

theorem binit_ok : binit.Ok where
  lru := reverse_perm _
  unique := fun _ _ _ _ hdev => absurd rfl hdev
  refs := fun _ _ => by simp [binit, users, Stage.refs]
  inUse := fun _ _ hhold => absurd rfl hhold
  lock := fun _ _ => iff_of_false Bool.false_ne_true (some_ne_none _).symm
  valid := nofun

end Bcache

end EAFITos
