/-
The reference counts of the file table: each process has a share in every entry, through
its descriptors and through what its call holds at the moment, and the count is the sum
of the shares.
-/
import EAFITos.FileTable

namespace EAFITos

open Function List

/-! ## Shares -/

/-- 1 if the descriptor leads to `f`. -/
def pointsTo (x : Option Nat) (f : Nat) : Int := if x = some f then 1 else 0

/-- The number of descriptors in a table that lead to `f`. -/
def descriptors (o : Nat → Option Nat) (f : Nat) : Int :=
  ∑ fd ∈ Finset.range NOFILE, pointsTo (o fd) f

namespace FilePc

/-- The references that a call holds outside the descriptors. -/
def loose : FilePc → List Nat
  | .openFd _ f | .pipeAlloc1 f => [f]
  | .pipePage rf wf | .pipeFd rf wf _ => [rf, wf]
  | .undo _ fs | .undoObject _ _ fs => fs
  | _ => []

/-- What `kexit` has given back with the descriptor still set. -/
def returnedRef : FilePc → Option Nat
  | .exitObject _ f _ => some f
  | _ => none

def extra (pc : FilePc) (f : Nat) : Int := pc.loose.count f - pointsTo pc.returnedRef f

end FilePc

theorem pointsTo_nonneg (x : Option Nat) (f : Nat) : 0 ≤ pointsTo x f := by
  rw [pointsTo]
  split <;> decide

theorem pointsTo_none (f : Nat) : pointsTo none f = 0 := if_neg nofun

theorem pointsTo_self (f : Nat) : pointsTo (some f) f = 1 := if_pos rfl

theorem descriptors_nonneg (o : Nat → Option Nat) (f : Nat) : 0 ≤ descriptors o f :=
  Finset.sum_nonneg fun fd _ => pointsTo_nonneg (o fd) f

theorem pointsTo_le_descriptors (o : Nat → Option Nat) (f : Nat) {fd : Nat} (hfd : fd < NOFILE) :
    pointsTo (o fd) f ≤ descriptors o f :=
  Finset.single_le_sum (f := fun fd => pointsTo (o fd) f) (fun fd _ => pointsTo_nonneg (o fd) f)
    (Finset.mem_range.mpr hfd)

/-- A descriptor is set. -/
theorem descriptors_update (o : Nat → Option Nat) (f : Nat) {fd : Nat} (hfd : fd < NOFILE)
    (x : Option Nat) :
    descriptors (update o fd x) f + pointsTo (o fd) f = descriptors o f + pointsTo x f := by
  have hsum := Tally.sum_change (f := fun i => pointsTo (update o fd x i) f)
    (g := fun i => pointsTo (o i) f) (Finset.mem_range.mpr hfd)
    fun i _ hi => by rw [update_of_ne hi]
  rw [update_self] at hsum
  exact hsum

namespace Ftable

variable {s s' : Ftable} {p q f : Nat}

/-- The references to `f` that are due to `p`. -/
def share (s : Ftable) (p f : Nat) : Int := descriptors (s.ofile p) f + (s.proc p).extra f

/-- Every reference count is the sum of the shares. -/
def Counted (s : Ftable) : Prop :=
  ∀ f, ((s.file f).ref : Int) = ∑ p ∈ Finset.range NPROC, s.share p f

theorem Counted.change (h : Counted s) (hp : p < NPROC)
    (hother : ∀ q, q ≠ p → ∀ f, s'.share q f = s.share q f)
    (hshare : ∀ f, ((s'.file f).ref : Int) + s.share p f = (s.file f).ref + s'.share p f) :
    Counted s' := by
  intro f
  have hsum := Tally.sum_change (f := fun q => s'.share q f) (g := fun q => s.share q f)
    (Finset.mem_range.mpr hp) fun q _ hq => hother q hq f
  have hf := h f
  have hdelta := hshare f
  omega

section

variable (h : Counted s) (hnonneg : ∀ q f, 0 ≤ s.share q f) (hp : p < NPROC)
include h hnonneg hp

theorem Counted.share_le : s.share p f ≤ (s.file f).ref := by
  rw [h f]
  exact Finset.single_le_sum (f := fun q => s.share q f) (fun q _ => hnonneg q f)
    (Finset.mem_range.mpr hp)

/-- A file with one reference belongs to one process. -/
theorem Counted.sole (hq : q < NPROC) (hshare : 1 ≤ s.share p f) (hshare' : 1 ≤ s.share q f)
    (href : (s.file f).ref = 1) : p = q := by
  by_contra hne
  have hpair : ∑ r ∈ {p, q}, s.share r f ≤ ∑ r ∈ Finset.range NPROC, s.share r f := by
    refine Finset.sum_le_sum_of_subset_of_nonneg ?_ fun r _ _ => hnonneg r f
    intro r hr
    rw [Finset.mem_insert, Finset.mem_singleton] at hr
    rw [Finset.mem_range]
    obtain rfl | rfl := hr
    · exact hp
    · exact hq
  rw [Finset.sum_pair hne, ← h f, href] at hpair
  omega

end

end Ftable

/-! ## What is known of a process -/

namespace FilePc

/-- An entry that was allocated and not filled in. -/
structure Blank (file : Nat → File) (f : Nat) : Prop where
  lt : f < NFILE
  ref : (file f).ref = 1
  type : (file f).type = .FD_NONE

/-- An entry for one end of the pipe `pi`. -/
structure End (file : Nat → File) (f pi : Nat) (writable : Bool) : Prop where
  lt : f < NFILE
  ref : (file f).ref = 1
  type : (file f).type = .FD_PIPE
  pipe : (file f).pipe = pi
  writable : (file f).writable = writable

/-- An entry that a failing call may close: it has no object, or the pipe that the call made. -/
structure Mine (file : Nat → File) (made : Option Nat) (f : Nat) : Prop where
  lt : f < NFILE
  ref : (file f).ref = 1
  object : (file f).type = .FD_NONE ∨ (file f).type = .FD_PIPE ∧ made = some (file f).pipe

/-- What is known of a process with descriptors `o`, which were `sv` when its call began. -/
def Fine (file : Nat → File) (o sv : Nat → Option Nat) : FilePc → Prop
  | .unused | .zombie => ∀ fd, o fd = none
  | .embryo | .closeObject _ | .forkDup _ _ => True
  | .returned r => r = -1 → o = sv
  | .openAlloc _ | .pipeAlloc => o = sv
  | .openFd _ f | .pipeAlloc1 f => o = sv ∧ Blank file f
  | .pipePage rf wf => o = sv ∧ rf ≠ wf ∧ Blank file rf ∧ Blank file wf
  | .pipeFd rf wf pi => o = sv ∧ rf ≠ wf ∧ End file rf pi false ∧ End file wf pi true
  | .pipeCopy rf wf pi fd0 fd1 =>
    (rf ≠ wf ∧ End file rf pi false ∧ End file wf pi true) ∧
      (fd0 ≠ fd1 ∧ fd0 < NOFILE ∧ fd1 < NOFILE ∧ sv fd0 = none ∧ sv fd1 = none) ∧
      o = update (update sv fd0 (some rf)) fd1 (some wf)
  | .undo made fs => o = sv ∧ fs.Nodup ∧ ∀ f ∈ fs, Mine file made f
  | .undoObject made ff fs =>
    (o = sv ∧ fs.Nodup ∧ ∀ f ∈ fs, Mine file made f) ∧
      ff.type = .FD_PIPE ∧ made = some ff.pipe
  | .exitFd i => ∀ fd, fd < i → o fd = none
  | .exitObject _ f i => (∀ fd, fd < i → o fd = none) ∧ o i = some f ∧ i < NOFILE

/-- The entries that only this process can reach. -/
def owned : FilePc → List Nat
  | .pipeCopy rf wf _ _ _ => [rf, wf]
  | pc => pc.loose

variable {file file' : Nat → File} {o sv : Nat → Option Nat} {pc : FilePc} {f : Nat}

theorem Blank.congr (h : Blank file f) (heq : file' f = file f) : Blank file' f :=
  ⟨h.lt, heq ▸ h.ref, heq ▸ h.type⟩

theorem End.congr {pi : Nat} {w : Bool} (h : End file f pi w) (heq : file' f = file f) :
    End file' f pi w := ⟨h.lt, heq ▸ h.ref, heq ▸ h.type, heq ▸ h.pipe, heq ▸ h.writable⟩

theorem Mine.congr {made : Option Nat} (h : Mine file made f) (heq : file' f = file f) :
    Mine file' made f := ⟨h.lt, heq ▸ h.ref, heq ▸ h.object⟩

theorem Blank.mine (h : Blank file f) : Mine file none f := ⟨h.lt, h.ref, .inl h.type⟩

theorem End.mine {pi : Nat} {w : Bool} (h : End file f pi w) : Mine file (some pi) f :=
  ⟨h.lt, h.ref, .inr ⟨h.type, congrArg some h.pipe.symm⟩⟩

/-- What is known depends only on the entries of the process itself. -/
theorem Fine.congr (h : pc.Fine file o sv) (heq : ∀ f ∈ pc.owned, file' f = file f) :
    pc.Fine file' o sv := by
  cases pc with
  | openFd op f => exact ⟨h.1, h.2.congr (heq f (by simp [owned, loose]))⟩
  | pipeAlloc1 f => exact ⟨h.1, h.2.congr (heq f (by simp [owned, loose]))⟩
  | pipePage rf wf =>
    exact ⟨h.1, h.2.1, h.2.2.1.congr (heq rf (by simp [owned, loose])),
      h.2.2.2.congr (heq wf (by simp [owned, loose]))⟩
  | pipeFd rf wf pi =>
    exact ⟨h.1, h.2.1, h.2.2.1.congr (heq rf (by simp [owned, loose])),
      h.2.2.2.congr (heq wf (by simp [owned, loose]))⟩
  | pipeCopy rf wf pi fd0 fd1 =>
    exact ⟨⟨h.1.1, h.1.2.1.congr (heq rf (by simp [owned])),
      h.1.2.2.congr (heq wf (by simp [owned]))⟩, h.2⟩
  | undo made fs => exact ⟨h.1, h.2.1, fun f hf => (h.2.2 f hf).congr (heq f hf)⟩
  | undoObject made ff fs =>
    exact ⟨⟨h.1.1, h.1.2.1, fun f hf => (h.1.2.2 f hf).congr (heq f hf)⟩, h.2⟩
  | _ => exact h

theorem Fine.ref (h : pc.Fine file o sv) (hf : f ∈ pc.owned) : (file f).ref = 1 := by
  cases pc with
  | openFd op g =>
    obtain rfl := mem_singleton.mp hf
    exact h.2.ref
  | pipeAlloc1 g =>
    obtain rfl := mem_singleton.mp hf
    exact h.2.ref
  | pipePage rf wf =>
    obtain rfl | hf := mem_cons.mp hf
    · exact h.2.2.1.ref
    · exact mem_singleton.mp hf ▸ h.2.2.2.ref
  | pipeFd rf wf pi =>
    obtain rfl | hf := mem_cons.mp hf
    · exact h.2.2.1.ref
    · exact mem_singleton.mp hf ▸ h.2.2.2.ref
  | pipeCopy rf wf pi fd0 fd1 =>
    obtain rfl | hf := mem_cons.mp hf
    · exact h.1.2.1.ref
    · exact mem_singleton.mp hf ▸ h.1.2.2.ref
  | undo made fs => exact (h.2.2 f hf).ref
  | undoObject made ff fs => exact (h.1.2.2 f hf).ref
  | _ => cases hf

end FilePc

namespace Ftable

variable {s s' : Ftable} {p q f fd : Nat} {pc : FilePc}

/-- What is known of the entries, the descriptors and the processes. -/
structure Facts (s : Ftable) : Prop where
  fine : ∀ p, (s.proc p).Fine s.file (s.ofile p) (s.saved p)
  procs : ∀ p, s.proc p ≠ .unused → p < NPROC
  bounded : ∀ p fd f, s.ofile p fd = some f → fd < NOFILE ∧ f < NFILE
  typed : ∀ p fd f, s.ofile p fd = some f → (∀ ff g, s.proc p ≠ .exitObject ff g fd) →
    (s.file f).type ≠ .FD_NONE
  free : ∀ f, (s.file f).ref = 0 → (s.file f).type = .FD_NONE
  child : ∀ p c i, s.proc p = .forkDup c i → s.proc c = .embryo ∧ ∀ fd, i ≤ fd → s.ofile c fd = none
  parent : ∀ p q c i j, s.proc p = .forkDup c i → s.proc q = .forkDup c j → p = q

theorem share_of_exit {o : Nat → Option Nat} {ff : File} {g i : Nat} (hi : i < NOFILE)
    (ho : o i = some g) (f : Nat) :
    descriptors o f + (FilePc.exitObject ff g i).extra f = descriptors (update o i none) f := by
  have hupdate := descriptors_update o f hi none
  rw [ho, pointsTo_none] at hupdate
  rw [FilePc.extra]
  simp only [FilePc.loose, FilePc.returnedRef, count_nil]
  omega

/-- A process that is not in the middle of `fileclose` in `kexit` has nothing to take off. -/
theorem extra_nonneg (hpc : ∀ ff g i, pc ≠ .exitObject ff g i) (f : Nat) : 0 ≤ pc.extra f := by
  have hnone : pc.returnedRef = none := by
    cases pc with
    | exitObject ff g i => exact absurd rfl (hpc ff g i)
    | _ => rfl
  rw [FilePc.extra, hnone, pointsTo_none]
  omega

theorem share_nonneg (hfine : (s.proc p).Fine s.file (s.ofile p) (s.saved p)) (f : Nat) :
    0 ≤ s.share p f := by
  rw [share]
  cases hpc : s.proc p
  case exitObject ff g i =>
    rw [hpc] at hfine
    rw [share_of_exit hfine.2.2 hfine.2.1]
    exact descriptors_nonneg _ f
  all_goals
    exact Int.add_nonneg (descriptors_nonneg _ f) (extra_nonneg (by nofun) f)

/-- A descriptor is a share. -/
theorem share_of_fd (hfine : (s.proc p).Fine s.file (s.ofile p) (s.saved p)) (hlt : fd < NOFILE)
    (hfd : s.ofile p fd = some f) (hexit : ∀ ff g, s.proc p ≠ .exitObject ff g fd) :
    1 ≤ s.share p f := by
  have hone : ∀ o : Nat → Option Nat, o fd = some f → 1 ≤ descriptors o f := by
    intro o ho
    have hle := pointsTo_le_descriptors o f hlt
    rwa [ho, pointsTo_self] at hle
  rw [share]
  cases hpc : s.proc p
  case exitObject ff g i =>
    rw [hpc] at hfine
    rw [share_of_exit hfine.2.2 hfine.2.1]
    have hne : fd ≠ i := by
      rintro rfl
      exact hexit ff g hpc
    exact hone _ (by rw [update_of_ne hne]; exact hfd)
  all_goals
    exact Int.le_trans (hone _ hfd) (Int.le_add_of_nonneg_right (extra_nonneg (by nofun) f))

theorem Facts.share_nonneg (h : Facts s) (p f : Nat) : 0 ≤ s.share p f :=
  Ftable.share_nonneg (h.fine p) f

theorem Facts.share_of_fd (h : Facts s) (hfd : s.ofile p fd = some f)
    (hexit : ∀ ff g, s.proc p ≠ .exitObject ff g fd) : 1 ≤ s.share p f :=
  Ftable.share_of_fd (h.fine p) (h.bounded p fd f hfd).1 hfd hexit

/-- So is an entry that only the process can reach. -/
theorem Facts.share_of_owned (h : Facts s) (hf : f ∈ (s.proc p).owned) : 1 ≤ s.share p f := by
  have hloose : (s.proc p).returnedRef = none → f ∈ (s.proc p).loose → 1 ≤ s.share p f := by
    intro hnone hmem
    have hcount := one_le_count_iff.mpr hmem
    have hnonneg := descriptors_nonneg (s.ofile p) f
    rw [share, FilePc.extra, hnone, pointsTo_none]
    omega
  cases hpc : s.proc p
  all_goals rw [hpc] at hf
  case pipeCopy rf wf pi fd0 fd1 =>
    have hfine := h.fine p
    rw [hpc] at hfine
    obtain ⟨-, ⟨hne, -, -, -, -⟩, ho⟩ := hfine
    have hexit : ∀ fd ff g, s.proc p ≠ .exitObject ff g fd := by
      rw [hpc]
      nofun
    obtain rfl | hf := mem_cons.mp hf
    · have hfd : s.ofile p fd0 = some f := by
        rw [ho, update_of_ne hne, update_self]
      exact h.share_of_fd hfd (hexit fd0)
    · obtain rfl := mem_singleton.mp hf
      have hfd : s.ofile p fd1 = some f := by
        rw [ho, update_self]
      exact h.share_of_fd hfd (hexit fd1)
  case exitObject ff g i => cases hf
  all_goals exact hloose (by rw [hpc]; rfl) (by rw [hpc]; exact hf)

theorem Facts.not_owned (h : Facts s) (hcounted : Counted s) (hp : p < NPROC) (hq : q ≠ p)
    (hshare : 1 ≤ s.share p f) : f ∉ (s.proc q).owned := by
  intro hf
  have hqlt : q < NPROC := by
    refine h.procs q fun hunused => ?_
    rw [hunused] at hf
    cases hf
  exact hq (hcounted.sole h.share_nonneg hqlt hp (h.share_of_owned hf) hshare ((h.fine q).ref hf))

/-! ## Pipes -/

/-- 1 if the entry is an end of the pipe `pi`. -/
def token (file : File) (pi : Nat) (writable : Bool) : Nat :=
  if file.type = .FD_PIPE ∧ file.pipe = pi ∧ file.writable = writable then 1 else 0

end Ftable

/-- The object that a process is about to close. -/
def FilePc.object : FilePc → Option File
  | .undoObject _ ff _ | .closeObject ff | .exitObject ff _ _ => some ff
  | _ => none

namespace Ftable

variable {s s' : Ftable} {p q f fd : Nat} {pc : FilePc}

def objectToken (pc : FilePc) (pi : Nat) (writable : Bool) : Nat :=
  match pc.object with
  | some ff => token ff pi writable
  | none => 0

/-- The entries and the calls in progress that keep an end of a pipe open. -/
def tokens (s : Ftable) (pi : Nat) (writable : Bool) : Nat :=
  ∑ f ∈ Finset.range NFILE, token (s.file f) pi writable +
    ∑ p ∈ Finset.range NPROC, objectToken (s.proc p) pi writable

/-- 1 if that end is open. -/
def openEnd (s : Ftable) (pi : Nat) (writable : Bool) : Nat :=
  match s.pipe pi with
  | none => 0
  | some ends => if (if writable then ends.writeopen else ends.readopen) then 1 else 0

/-- An end of a pipe is open as long as one entry leads to it, and a page is a pipe as long as
an end is open. -/
structure Piped (s : Ftable) : Prop where
  tokens : ∀ pi w, s.tokens pi w = s.openEnd pi w
  used : ∀ pi ends, s.pipe pi = some ends → ends.readopen = true ∨ ends.writeopen = true

structure Inv (s : Ftable) : Prop where
  safe : s.panicked = none
  counted : Counted s
  facts : Facts s
  piped : Piped s

theorem tokens_congr (hfile : s'.file = s.file) (hproc : s'.proc = s.proc) (pi : Nat) (w : Bool) :
    s'.tokens pi w = s.tokens pi w := by
  rw [tokens, tokens, hfile, hproc]

theorem tokens_setFile (s : Ftable) (hf : f < NFILE) (file : File) (pi : Nat) (w : Bool) :
    (s.setFile f file).tokens pi w + token (s.file f) pi w = s.tokens pi w + token file pi w := by
  have hsum := Tally.sum_change (f := fun g => token (update s.file f file g) pi w)
    (g := fun g => token (s.file g) pi w) (Finset.mem_range.mpr hf)
    fun g _ hg => by rw [update_of_ne hg]
  rw [update_self] at hsum
  rw [tokens, tokens, setFile]
  dsimp only
  omega

theorem tokens_goto (s : Ftable) (hp : p < NPROC) (pc : FilePc) (pi : Nat) (w : Bool) :
    (s.goto p pc).tokens pi w + objectToken (s.proc p) pi w =
      s.tokens pi w + objectToken pc pi w := by
  have hsum := Tally.sum_change (f := fun q => objectToken (update s.proc p pc q) pi w)
    (g := fun q => objectToken (s.proc q) pi w) (Finset.mem_range.mpr hp)
    fun q _ hq => by rw [update_of_ne hq]
  rw [update_self] at hsum
  rw [tokens, tokens, goto]
  dsimp only
  omega

/-- Nothing happens to the pipes. -/
theorem Piped.congr (h : Piped s) (hpipe : s'.pipe = s.pipe)
    (htokens : ∀ pi w, s'.tokens pi w = s.tokens pi w) : Piped s' := by
  refine ⟨fun pi w => ?_, ?_⟩
  · rw [htokens, h.tokens, openEnd, openEnd, hpipe]
  · rw [hpipe]
    exact h.used

theorem objectToken_of_none (h : pc.object = none) (pi : Nat) (w : Bool) :
    objectToken pc pi w = 0 := by
  rw [objectToken, h]

theorem objectToken_of_some {ff : File} (h : pc.object = some ff) (pi : Nat) (w : Bool) :
    objectToken pc pi w = token ff pi w := by
  rw [objectToken, h]

/-! ## The steps of one process -/

theorem Facts.not_child (h : Facts s) (hp : s.proc p ≠ .embryo) (q i : Nat) :
    s.proc q ≠ .forkDup p i := fun hq => hp (h.child q p i hq).1

/-- A step that concerns one process: the others know what they knew, and a descriptor still
leads to an entry with a reference. -/
theorem Inv.revise (h : Inv s) (hp : p < NPROC) (hproc : s'.proc = update s.proc p pc)
    (hofile : ∀ q, q ≠ p → s'.ofile q = s.ofile q) (hsaved : ∀ q, q ≠ p → s'.saved q = s.saved q)
    (hfile : ∀ q, q ≠ p → ∀ f ∈ (s.proc q).owned, s'.file f = s.file f)
    (hshare : ∀ f, ((s'.file f).ref : Int) + s.share p f = (s.file f).ref + s'.share p f)
    (hself : pc.Fine s'.file (s'.ofile p) (s'.saved p))
    (hbounded : ∀ fd f, s'.ofile p fd = some f → fd < NOFILE ∧ f < NFILE)
    (htyped : ∀ q fd f, s'.ofile q fd = some f → (∀ ff g, s'.proc q ≠ .exitObject ff g fd) →
      (s'.file f).ref ≠ 0 → (s'.file f).type ≠ .FD_NONE)
    (hfree : ∀ f, (s'.file f).ref = 0 → (s'.file f).type = .FD_NONE)
    (hchild : ∀ q i, s.proc q = .forkDup p i → pc = .embryo ∧ ∀ fd, i ≤ fd → s'.ofile p fd = none)
    (hfork : ∀ c i, pc = .forkDup c i → c ≠ p ∧ s.proc c = .embryo ∧
      (∀ fd, i ≤ fd → s.ofile c fd = none) ∧ ∀ q j, q ≠ p → s.proc q ≠ .forkDup c j)
    (hsafe : s'.panicked = none) (hpiped : Piped s') : Inv s' := by
  have hother : ∀ q, q ≠ p → s'.proc q = s.proc q := by
    intro q hq
    rw [hproc, update_of_ne hq]
  have hnew : s'.proc p = pc := by rw [hproc, update_self]
  have hcounted : Counted s' := by
    refine h.counted.change hp (fun q hq f => ?_) hshare
    rw [share, share, hofile q hq, hother q hq]
  have hfine : ∀ q, (s'.proc q).Fine s'.file (s'.ofile q) (s'.saved q) := by
    intro q
    by_cases hqp : q = p
    · subst hqp
      rw [hnew]
      exact hself
    · rw [hother q hqp, hofile q hqp, hsaved q hqp]
      exact (h.facts.fine q).congr (hfile q hqp)
  have hprocs : ∀ q, s'.proc q ≠ .unused → q < NPROC := by
    intro q hq
    by_cases hqp : q = p
    · exact hqp ▸ hp
    · exact h.facts.procs q (hother q hqp ▸ hq)
  have hlts : ∀ q fd f, s'.ofile q fd = some f → fd < NOFILE ∧ f < NFILE := by
    intro q fd f hq
    by_cases hqp : q = p
    · subst hqp
      exact hbounded fd f hq
    · exact h.facts.bounded q fd f (hofile q hqp ▸ hq)
  refine ⟨hsafe, hcounted, ⟨hfine, hprocs, hlts, ?_, hfree, ?_, ?_⟩, hpiped⟩
  · intro q fd f hq hexit
    refine htyped q fd f hq hexit fun hzero => ?_
    have hqlt : q < NPROC := by
      refine hprocs q fun hunused => ?_
      have hnone := hfine q
      rw [hunused] at hnone
      cases (hnone fd).symm.trans hq
    have hshare := share_of_fd (hfine q) (hlts q fd f hq).1 hq hexit
    have hle := hcounted.share_le (fun q f => share_nonneg (hfine q) f) (f := f) hqlt
    omega
  · intro q c i hq
    by_cases hqp : q = p
    · subst hqp
      obtain ⟨hcp, hembryo, hnone, -⟩ := hfork c i (hnew ▸ hq)
      rw [hother c hcp, hofile c hcp]
      exact ⟨hembryo, hnone⟩
    · rw [hother q hqp] at hq
      by_cases hcp : c = p
      · subst hcp
        rw [hnew]
        exact hchild q i hq
      · rw [hother c hcp, hofile c hcp]
        exact h.facts.child q c i hq
  · intro q r c i j hq hr
    by_cases hqp : q = p
    · by_contra hne
      have hrp : r ≠ p := fun hrp => hne (hqp.trans hrp.symm)
      rw [hqp, hnew] at hq
      rw [hother r hrp] at hr
      exact (hfork c i hq).2.2.2 r j hrp hr
    · by_cases hrp : r = p
      · rw [hrp, hnew] at hr
        rw [hother q hqp] at hq
        exact absurd hq ((hfork c j hr).2.2.2 q i hqp)
      · rw [hother q hqp] at hq
        rw [hother r hrp] at hr
        exact h.facts.parent q r c i j hq hr

theorem extra_of_object (h : pc.object = none) (f : Nat) : pc.extra f = pc.loose.count f := by
  have hnone : pc.returnedRef = none := by
    cases pc <;> first | rfl | cases h
  rw [FilePc.extra, hnone, pointsTo_none, Int.sub_zero]

theorem not_exit_before (hobject : (s.proc p).object = none) (hproc : s'.proc = update s.proc p pc)
    (hq : ∀ ff g, s'.proc q ≠ .exitObject ff g fd) (ff : File) (g : Nat) :
    s.proc q ≠ .exitObject ff g fd := by
  by_cases hqp : q = p
  · subst hqp
    intro heq
    rw [heq] at hobject
    cases hobject
  · have hq := hq ff g
    rwa [hproc, update_of_ne hqp] at hq

/-- The share of a process that moves on from state `s`. -/
theorem share_goto (s : Ftable) (p : Nat) (pc : FilePc) (f : Nat) :
    (s.goto p pc).share p f = descriptors (s.ofile p) f + pc.extra f := by
  have hpc : (s.goto p pc).proc p = pc := update_self _ _ _
  rw [share, hpc]
  rfl

theorem tokens_goto_plain (s : Ftable) (hp : p < NPROC) (pc : FilePc)
    (hobject : pc.object = none ∧ (s.proc p).object = none) (pi : Nat) (w : Bool) :
    (s.goto p pc).tokens pi w = s.tokens pi w := by
  have htokens := s.tokens_goto hp pc pi w
  rw [objectToken_of_none hobject.1, objectToken_of_none hobject.2, Nat.add_zero,
    Nat.add_zero] at htokens
  exact htokens

/-- A process goes on, with its descriptors and its references as they were. -/
theorem Inv.goto (h : Inv s) (hp : p < NPROC) (hloose : pc.loose = (s.proc p).loose)
    (hobject : pc.object = none ∧ (s.proc p).object = none)
    (hchild : ∀ q i, s.proc q ≠ .forkDup p i)
    (hfork : ∀ c i, pc = .forkDup c i → c ≠ p ∧ s.proc c = .embryo ∧
      (∀ fd, i ≤ fd → s.ofile c fd = none) ∧ ∀ q j, q ≠ p → s.proc q ≠ .forkDup c j)
    {saved : Nat → Nat → Option Nat}
    (hsaved : ∀ q, q ≠ p → saved q = s.saved q) (hself : pc.Fine s.file (s.ofile p) (saved p)) :
    Inv ({ s with saved := saved }.goto p pc) := by
  refine h.revise hp rfl (fun _ _ => rfl) hsaved (fun _ _ _ _ => rfl) (fun f => ?_) hself
    (h.facts.bounded p) ?_ h.facts.free (fun q i hq => absurd hq (hchild q i)) hfork h.safe ?_
  · rw [share_goto, share, extra_of_object hobject.1, extra_of_object hobject.2, hloose]
    rfl
  · intro q fd f hq hexit _
    exact h.facts.typed q fd f hq (not_exit_before hobject.2 rfl hexit)
  · exact h.piped.congr rfl fun pi w =>
      (tokens_goto_plain { s with saved := saved } hp pc hobject pi w).trans
        (tokens_congr rfl rfl pi w)

theorem Inv.fill (h : Inv s) (hp : p < NPROC) (pc : FilePc) (file : Nat → File)
    (pipe : Nat → Option PipeEnds) (o : Nat → Option Nat)
    (hobject : pc.object = none ∧ (s.proc p).object = none) (hbefore : s.proc p ≠ .embryo)
    (hfork : ∀ c i, pc ≠ .forkDup c i)
    (hfile : ∀ f, file f = s.file f ∨ f ∈ (s.proc p).owned ∧ (file f).ref = (s.file f).ref ∧
      (file f).type ≠ .FD_NONE)
    (hshare : ∀ f, descriptors (s.ofile p) f + (s.proc p).loose.count f =
      descriptors o f + pc.loose.count f)
    (hbounded : ∀ fd f, o fd = some f → fd < NOFILE ∧ f < NFILE)
    (htyped : ∀ fd f, o fd = some f → (file f).type ≠ .FD_NONE) (hself : pc.Fine file o (s.saved p))
    (hpiped : Piped ({ s with file := file, pipe := pipe }.goto p pc)) :
    Inv ({ s with file := file, pipe := pipe, ofile := update s.ofile p o }.goto p pc) := by
  have ho : update s.ofile p o p = o := update_self _ _ _
  have href : ∀ f, (file f).ref = (s.file f).ref := by
    intro f
    obtain heq | ⟨-, heq, -⟩ := hfile f
    · rw [heq]
    · exact heq
  refine h.revise hp rfl (fun q hq => update_of_ne hq _ _) (fun _ _ => rfl) ?_
    (fun f => ?_) ?_ ?_ ?_ ?_ (fun q i hq => absurd hq (h.facts.not_child hbefore q i))
    (fun c i hpc => absurd hpc (hfork c i)) h.safe ?_
  · intro q hq f hf
    obtain heq | ⟨hmine, -, -⟩ := hfile f
    · exact heq
    · exact absurd hf (h.facts.not_owned h.counted hp hq (h.facts.share_of_owned hmine))
  · rw [share_goto, share, extra_of_object hobject.1, extra_of_object hobject.2]
    change ((file f).ref : Int) + _ = _ + (descriptors (update s.ofile p o p) f + _)
    rw [ho, href, hshare]
  · change pc.Fine file (update s.ofile p o p) (s.saved p)
    rw [ho]
    exact hself
  · change ∀ fd f, update s.ofile p o p fd = some f → _
    rw [ho]
    exact hbounded
  · intro q fd f hq hexit _
    change update s.ofile p o q fd = some f at hq
    change (file f).type ≠ .FD_NONE
    by_cases hqp : q = p
    · subst hqp
      rw [ho] at hq
      exact htyped fd f hq
    · rw [update_of_ne hqp] at hq
      obtain heq | ⟨-, -, hne⟩ := hfile f
      · rw [heq]
        exact h.facts.typed q fd f hq (not_exit_before hobject.2 rfl hexit)
      · exact hne
  · intro f hzero
    change (file f).ref = 0 at hzero
    change (file f).type = .FD_NONE
    obtain heq | ⟨hmine, -, -⟩ := hfile f
    · rw [heq] at hzero ⊢
      exact h.facts.free f hzero
    · have hone := (h.facts.fine p).ref hmine
      rw [href] at hzero
      omega
  · exact hpiped.congr rfl fun pi w => tokens_congr rfl rfl pi w

theorem Inv.setFds (h : Inv s) (hp : p < NPROC) {o : Nat → Option Nat}
    (hobject : pc.object = none ∧ (s.proc p).object = none) (hbefore : s.proc p ≠ .embryo)
    (hfork : ∀ c i, pc ≠ .forkDup c i)
    (hshare : ∀ f, descriptors (s.ofile p) f + (s.proc p).loose.count f =
      descriptors o f + pc.loose.count f)
    (hbounded : ∀ fd f, o fd = some f → fd < NOFILE ∧ f < NFILE)
    (htyped : ∀ fd f, o fd = some f → (s.file f).type ≠ .FD_NONE)
    (hself : pc.Fine s.file o (s.saved p)) :
    Inv ({ s with ofile := update s.ofile p o }.goto p pc) :=
  h.fill hp pc s.file s.pipe o hobject hbefore hfork (fun _ => .inl rfl) hshare hbounded htyped hself
    (h.piped.congr rfl (s.tokens_goto_plain hp pc hobject))

theorem filealloc_some (h : s.filealloc = some (f, s')) :
    f < NFILE ∧ (s.file f).ref = 0 ∧ s' = s.setFile f { s.file f with ref := 1 } := by
  rw [Ftable.filealloc, Option.map_eq_some_iff] at h
  obtain ⟨g, hfind, heq⟩ := h
  obtain ⟨rfl, rfl⟩ := Prod.mk.inj heq
  have hzero := find?_some hfind
  exact ⟨mem_range.mp (mem_of_find?_eq_some hfind), of_decide_eq_true hzero, rfl⟩

theorem file_setFile_self (s : Ftable) (f : Nat) (file : File) : (s.setFile f file).file f = file :=
  update_self _ _ _

theorem file_setFile_of_ne (s : Ftable) {g : Nat} (file : File) (h : g ≠ f) :
    (s.setFile f file).file g = s.file g := update_of_ne h _ _

/-- An entry is allocated for the call of `p`. -/
theorem Inv.filealloc (h : Inv s) (hp : p < NPROC) (hlt : f < NFILE) (hf : (s.file f).ref = 0)
    (hobject : pc.object = none ∧ (s.proc p).object = none) (hbefore : s.proc p ≠ .embryo)
    (hfork : ∀ c i, pc ≠ .forkDup c i)
    (hloose : ∀ g, pc.loose.count g = (s.proc p).loose.count g + if g = f then 1 else 0)
    (hself : pc.Fine (s.setFile f { s.file f with ref := 1 }).file (s.ofile p) (s.saved p)) :
    Inv ((s.setFile f { s.file f with ref := 1 }).goto p pc) := by
  refine h.revise hp rfl (fun _ _ => rfl) (fun _ _ => rfl) ?_ (fun g => ?_) hself
    (h.facts.bounded p) ?_ ?_ (fun q i hq => absurd hq (h.facts.not_child hbefore q i))
    (fun c i hpc => absurd hpc (hfork c i)) h.safe ?_
  · intro q _ g hg
    refine file_setFile_of_ne s _ fun heq => ?_
    rw [heq] at hg
    cases hf.symm.trans ((h.facts.fine q).ref hg)
  · have hg := hloose g
    rw [share_goto, share, extra_of_object hobject.1, extra_of_object hobject.2]
    change ((((s.setFile f { s.file f with ref := 1 }).file g).ref : Nat) : Int) + _ =
      _ + (descriptors (s.ofile p) g + _)
    by_cases hgf : g = f
    · subst hgf
      rw [file_setFile_self, hf]
      rw [if_pos rfl] at hg
      dsimp only
      omega
    · rw [file_setFile_of_ne s _ hgf]
      rw [if_neg hgf] at hg
      omega
  · intro q fd g hq hexit _
    have htype := h.facts.typed q fd g hq (not_exit_before hobject.2 rfl hexit)
    change ((s.setFile f { s.file f with ref := 1 }).file g).type ≠ _
    by_cases hgf : g = f
    · subst hgf
      rw [file_setFile_self]
      exact htype
    · rw [file_setFile_of_ne s _ hgf]
      exact htype
  · intro g hg
    change ((s.setFile f { s.file f with ref := 1 }).file g).ref = 0 at hg
    change ((s.setFile f { s.file f with ref := 1 }).file g).type = _
    by_cases hgf : g = f
    · subst hgf
      rw [file_setFile_self] at hg
      cases hg
    · rw [file_setFile_of_ne s _ hgf] at hg ⊢
      exact h.facts.free g hg
  · refine h.piped.congr rfl fun pi w => ?_
    exact (tokens_goto_plain (s.setFile f { s.file f with ref := 1 }) hp pc hobject pi w).trans
      (Nat.add_right_cancel (s.tokens_setFile hlt { s.file f with ref := 1 } pi w))

end Ftable

end EAFITos
