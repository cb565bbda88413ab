/-
The steps of `open`, `dup`, `pipe`, `close`, `fork` and `exit` on the file table: each keeps
the reference counts, and so no entry is closed or reused while a descriptor leads to it.
-/
import EAFITos.FileRefs

namespace EAFITos

open Function List Option

namespace Ftable

variable {ff file : File} {rf wf i pi : Nat} {o : Nat → Option Nat} {done : Ftable → Ftable}

variable {s s' : Ftable} {p q f fd : Nat} {pc : FilePc} {input : Option Nat}

variable {c fd0 fd1 : Nat} {before : FilePc} {ends : PipeEnds} {w : Bool}
  {object : File → Ftable → Ftable} {made : Option Nat} {e : FileEvent}

/-! ## Closing a file -/

/-- The entry after one reference is given up. -/
def closed (file : File) : File :=
  if 1 < file.ref then { file with ref := file.ref - 1 }
  else { file with ref := 0, type := .FD_NONE }

/-- The object that is left to close. -/
def leftOpen (file : File) : Option File :=
  if 1 < file.ref ∨ file.type = .FD_NONE then none else some { file with ref := 0 }

theorem fileclose_ok (s : Ftable) (href : 1 ≤ (s.file f).ref) :
    s.fileclose f = .ok (leftOpen (s.file f), s.setFile f (closed (s.file f))) := by
  rw [fileclose, if_neg (Nat.not_lt.mpr href), leftOpen, closed]
  by_cases hmany : 1 < (s.file f).ref
  · rw [if_pos hmany, if_pos hmany, if_pos (Or.inl hmany)]
  · rw [if_neg hmany, if_neg hmany]
    by_cases htype : (s.file f).type = .FD_NONE
    · rw [if_pos htype, if_pos (Or.inr htype)]
    · rw [if_neg htype, if_neg (by rintro (h | h) <;> contradiction)]

theorem ref_closed (file : File) : (closed file).ref = file.ref - 1 := by
  rw [closed]
  split
  · rfl
  · exact (Nat.sub_eq_zero_of_le (Nat.not_lt.mp ‹_›)).symm

theorem type_closed_of_ref (h : (closed file).ref ≠ 0) :
    (closed file).type = file.type := by
  rw [ref_closed] at h
  rw [closed, if_pos (by omega)]

theorem type_closed_of_last (h : (closed file).ref = 0) :
    (closed file).type = .FD_NONE := by
  rw [ref_closed] at h
  rw [closed, if_neg (by omega)]

/-- The end of a pipe that the entry kept open is now kept open by the call, if by anyone. -/
theorem token_closed (hpc : pc.object = leftOpen file) (pi : Nat) (w : Bool) :
    token (closed file) pi w + objectToken pc pi w = token file pi w := by
  by_cases hmany : 1 < file.ref
  · rw [leftOpen, if_pos (Or.inl hmany)] at hpc
    rw [objectToken_of_none hpc, closed, if_pos hmany]
    rfl
  · by_cases htype : file.type = .FD_NONE
    · rw [leftOpen, if_pos (Or.inr htype)] at hpc
      rw [objectToken_of_none hpc, closed, if_neg hmany, token, token, if_neg (by simp),
        if_neg (by simp [htype])]
    · rw [leftOpen, if_neg (by rintro (h | h) <;> contradiction)] at hpc
      rw [objectToken_of_some hpc, closed, if_neg hmany, token, if_neg (by simp), Nat.zero_add]
      rfl

theorem Inv.fileclose (h : Inv s) (hp : p < NPROC) (hlt : f < NFILE) (hf : 1 ≤ s.share p f)
    (pc : FilePc) (hobject : pc.object = leftOpen (s.file f))
    (hobject' : (s.proc p).object = none) (hbefore : s.proc p ≠ .embryo)
    (hfork : ∀ c i, pc ≠ .forkDup c i)
    (hshare : ∀ g, s.share p g = descriptors o g + pc.extra g + pointsTo (some f) g)
    (ho : ∀ fd g, o fd = some g → s.ofile p fd = some g)
    (hself : pc.Fine (s.setFile f (closed (s.file f))).file o (s.saved p)) :
    Inv ({ s.setFile f (closed (s.file f)) with ofile := update s.ofile p o }.goto p pc) := by
  have hself' : update s.ofile p o p = o := update_self _ _ _
  have href := h.counted.share_le h.facts.share_nonneg (f := f) hp
  have hold : ∀ q fd g, update s.ofile p o q fd = some g → s.ofile q fd = some g := by
    intro q fd g hq
    by_cases hqp : q = p
    · subst hqp
      rw [hself'] at hq
      exact ho fd g hq
    · rwa [update_of_ne hqp] at hq
  refine h.revise hp rfl (fun q hq => update_of_ne hq _ _) (fun _ _ => rfl) ?_
    (fun g => ?_) ?_ ?_ ?_ ?_ (fun q i hq => absurd hq (h.facts.not_child hbefore q i))
    (fun c i hpc => absurd hpc (hfork c i)) h.safe ?_
  · intro q hq g hg
    refine file_setFile_of_ne s _ fun heq => ?_
    rw [heq] at hg
    exact h.facts.not_owned h.counted hp hq hf hg
  · have hg := hshare g
    rw [share_goto]
    change ((((s.setFile f (closed (s.file f))).file g).ref : Nat) : Int) + _ =
      _ + (descriptors (update s.ofile p o p) g + _)
    rw [hself']
    by_cases hgf : g = f
    · subst hgf
      rw [pointsTo_self] at hg
      rw [file_setFile_self, ref_closed]
      omega
    · rw [pointsTo, if_neg fun heq => hgf (some.inj heq).symm] at hg
      rw [file_setFile_of_ne s _ hgf]
      omega
  · change pc.Fine _ (update s.ofile p o p) (s.saved p)
    rw [hself']
    exact hself
  · exact fun fd g hfd => h.facts.bounded p fd g (hold p fd g hfd)
  · intro q fd g hq hexit href
    have htype := h.facts.typed q fd g (hold q fd g hq) (not_exit_before hobject' rfl hexit)
    change ((s.setFile f (closed (s.file f))).file g).ref ≠ 0 at href
    change ((s.setFile f (closed (s.file f))).file g).type ≠ _
    by_cases hgf : g = f
    · subst hgf
      rw [file_setFile_self] at href ⊢
      rwa [type_closed_of_ref href]
    · rwa [file_setFile_of_ne s _ hgf]
  · intro g hg
    change ((s.setFile f (closed (s.file f))).file g).ref = 0 at hg
    change ((s.setFile f (closed (s.file f))).file g).type = _
    by_cases hgf : g = f
    · subst hgf
      rw [file_setFile_self] at hg ⊢
      exact type_closed_of_last hg
    · rw [file_setFile_of_ne s _ hgf] at hg ⊢
      exact h.facts.free g hg
  · refine h.piped.congr rfl fun pi w => ?_
    have hgoto := tokens_goto
      { s.setFile f (closed (s.file f)) with ofile := update s.ofile p o } hp pc pi w
    have hcongr : Ftable.tokens { s.setFile f (closed (s.file f)) with
        ofile := update s.ofile p o } pi w =
        (s.setFile f (closed (s.file f))).tokens pi w := tokens_congr rfl rfl pi w
    have hset := s.tokens_setFile hlt (closed (s.file f)) pi w
    have htoken := token_closed hobject pi w
    have hnone := objectToken_of_none hobject' pi w
    change _ + objectToken (s.proc p) pi w = _ at hgoto
    omega

/-- The pipe after one end is closed. -/
def closeEnd (ends : PipeEnds) (writable : Bool) : Option PipeEnds :=
  let ends : PipeEnds :=
    if writable then { ends with writeopen := false } else { ends with readopen := false }
  if ends.readopen = false ∧ ends.writeopen = false then none else some ends

/-- The pipes after the object is closed. -/
def closePipe (s : Ftable) (ff : File) : Nat → Option PipeEnds :=
  if ff.type = .FD_PIPE then
    update s.pipe ff.pipe ((s.pipe ff.pipe).bind fun ends => closeEnd ends ff.writable)
  else s.pipe

theorem token_self (h : ff.type = .FD_PIPE) : token ff ff.pipe ff.writable = 1 :=
  if_pos ⟨h, rfl, rfl⟩

theorem token_of_not_pipe (h : file.type ≠ .FD_PIPE) (pi : Nat) (w : Bool) :
    token file pi w = 0 := if_neg fun hp => h hp.1

section

variable (h : Inv s) (hp : p < NPROC) (hobject : (s.proc p).object = some ff)
include h hp hobject

/-- The end that a process is about to close is open. -/
theorem Inv.open_of_object (htype : ff.type = .FD_PIPE) :
    ∃ ends, s.pipe ff.pipe = some ends ∧
      (if ff.writable then ends.writeopen else ends.readopen) = true := by
  have hle : objectToken (s.proc p) ff.pipe ff.writable ≤ s.tokens ff.pipe ff.writable := by
    have hsum := Finset.single_le_sum (f := fun q => objectToken (s.proc q) ff.pipe ff.writable)
      (fun _ _ => Nat.zero_le _) (Finset.mem_range.mpr hp)
    exact Nat.le_trans hsum (Nat.le_add_left _ _)
  rw [objectToken_of_some hobject, token_self htype, h.piped.tokens, openEnd] at hle
  cases hpipe : s.pipe ff.pipe with
  | none =>
    rw [hpipe] at hle
    cases hle
  | some ends =>
    rw [hpipe] at hle
    refine ⟨ends, rfl, ?_⟩
    by_contra hclosed
    dsimp only at hle
    rw [if_neg hclosed] at hle
    cases hle

theorem Inv.closeObject_ok : s.closeObject ff = .ok { s with pipe := s.closePipe ff } := by
  rw [closeObject, closePipe]
  by_cases htype : ff.type = .FD_PIPE
  · obtain ⟨ends, hpipe, -⟩ := h.open_of_object hp hobject htype
    rw [if_pos htype, if_pos htype, hpipe]
    rfl
  · rw [if_neg htype, if_neg htype]

theorem Inv.openEnd_closePipe (pi : Nat) (w : Bool) :
    openEnd { s with pipe := s.closePipe ff } pi w + token ff pi w = s.openEnd pi w := by
  by_cases htype : ff.type = .FD_PIPE
  · obtain ⟨ends, hpipe, hopen⟩ := h.open_of_object hp hobject htype
    rw [openEnd, openEnd, closePipe, if_pos htype, token]
    dsimp only
    by_cases hpi : pi = ff.pipe
    · subst hpi
      rw [update_self, hpipe]
      obtain ⟨readopen, writeopen⟩ := ends
      revert hopen
      cases hw : ff.writable <;> cases w <;> cases readopen <;> cases writeopen <;>
        simp [closeEnd, htype]
    · rw [update_of_ne hpi, if_neg fun hne => hpi hne.2.1.symm, Nat.add_zero]
  · rw [closePipe, if_neg htype, token_of_not_pipe htype, Nat.add_zero]

end

theorem open_of_closeEnd {before : PipeEnds} (h : closeEnd before w = some ends) :
    ends.readopen = true ∨ ends.writeopen = true := by
  rw [closeEnd, ite_none_left_eq_some, some.injEq] at h
  obtain ⟨hopen, rfl⟩ := h
  rwa [not_and_or, Bool.not_eq_false, Bool.not_eq_false] at hopen

theorem used_closePipe (h : Piped s) (hends : s.closePipe ff pi = some ends) :
    ends.readopen = true ∨ ends.writeopen = true := by
  rw [closePipe] at hends
  split at hends
  · by_cases hpi : pi = ff.pipe
    · subst hpi
      rw [update_self, bind_eq_some_iff] at hends
      obtain ⟨before, -, hclose⟩ := hends
      exact open_of_closeEnd hclose
    · rw [update_of_ne hpi] at hends
      exact h.used pi ends hends
  · exact h.used pi ends hends

theorem Inv.closeObject (h : Inv s) (hp : p < NPROC) (hobject : (s.proc p).object = some ff)
    (hobject' : pc.object = none) (hfork : ∀ c i, pc ≠ .forkDup c i)
    (hshare : ∀ g, s.share p g = descriptors o g + pc.extra g) (ho : ∀ fd g, o fd = some g →
      s.ofile p fd = some g ∧ ∀ ff g, s.proc p ≠ .exitObject ff g fd)
    (hself : pc.Fine s.file o (s.saved p)) :
    Inv ({ s with pipe := s.closePipe ff, ofile := update s.ofile p o }.goto p pc) := by
  have hself' : update s.ofile p o p = o := update_self _ _ _
  have hbefore : s.proc p ≠ .embryo := by
    intro heq
    rw [heq] at hobject
    cases hobject
  refine h.revise hp rfl (fun q hq => update_of_ne hq _ _) (fun _ _ => rfl)
    (fun _ _ _ _ => rfl) (fun g => ?_) ?_ ?_ ?_ h.facts.free
    (fun q i hq => absurd hq (h.facts.not_child hbefore q i))
    (fun c i hpc => absurd hpc (hfork c i)) h.safe ⟨fun pi w => ?_, fun pi ends => ?_⟩
  · rw [share_goto, hshare]
    change _ = _ + (descriptors (update s.ofile p o p) g + _)
    rw [hself']
    rfl
  · change pc.Fine s.file (update s.ofile p o p) (s.saved p)
    rw [hself']
    exact hself
  · intro fd g hfd
    change update s.ofile p o p fd = some g at hfd
    rw [hself'] at hfd
    exact h.facts.bounded p fd g (ho fd g hfd).1
  · intro q fd g hq hexit _
    change update s.ofile p o q fd = some g at hq
    by_cases hqp : q = p
    · subst hqp
      rw [hself'] at hq
      exact h.facts.typed q fd g (ho fd g hq).1 (ho fd g hq).2
    · rw [update_of_ne hqp] at hq
      refine h.facts.typed q fd g hq fun ff g heq => hexit ff g ?_
      rw [← heq]
      exact update_of_ne hqp _ _
  · have hgoto := tokens_goto
      { s with pipe := s.closePipe ff, ofile := update s.ofile p o } hp pc pi w
    have hcongr : Ftable.tokens { s with
        pipe := s.closePipe ff, ofile := update s.ofile p o } pi w = s.tokens pi w :=
      tokens_congr rfl rfl pi w
    have hend := h.openEnd_closePipe hp hobject pi w
    have htokens := h.piped.tokens pi w
    rw [objectToken_of_some hobject, objectToken_of_none hobject'] at hgoto
    change _ = openEnd { s with pipe := s.closePipe ff } pi w
    omega
  · exact used_closePipe h.piped

/-! ## Another reference -/

theorem of_update_some {fd' g : Nat} (h : update o fd (some f) fd' = some g) :
    fd' = fd ∧ g = f ∨ o fd' = some g := by
  by_cases heq : fd' = fd
  · subst heq
    rw [update_self] at h
    exact .inl ⟨rfl, (some.inj h).symm⟩
  · rw [update_of_ne heq] at h
    exact .inr h

/-- The free descriptor `fd` of `p` leads to `f` as well. -/
theorem Inv.filedup (h : Inv s) (hp : p < NPROC) (pc : FilePc) (hfd : fd < NOFILE)
    (hnone : s.ofile p fd = none) (hlt : f < NFILE) (htype : (s.file f).type ≠ .FD_NONE)
    (hshared : ∀ q, q ≠ p → f ∉ (s.proc q).owned)
    (hobject : pc.object = none ∧ (s.proc p).object = none)
    (hloose : pc.loose = (s.proc p).loose)
    (hchild : ∀ q i, s.proc q = .forkDup p i → pc = .embryo ∧ fd < i)
    (hfork : ∀ c i, pc ≠ .forkDup c i)
    (hself : pc.Fine (s.setFile f { s.file f with ref := (s.file f).ref + 1 }).file
      (update (s.ofile p) fd (some f)) (s.saved p)) :
    Inv (((s.setFd p fd (some f)).setFile f
      { s.file f with ref := (s.file f).ref + 1 }).goto p pc) := by
  have ho : update s.ofile p (update (s.ofile p) fd (some f)) p =
      update (s.ofile p) fd (some f) := update_self _ _ _
  have hkeep : ∀ g, ((s.setFile f { s.file f with ref := (s.file f).ref + 1 }).file g).type =
      (s.file g).type := by
    intro g
    by_cases hgf : g = f
    · subst hgf
      rw [file_setFile_self]
    · rw [file_setFile_of_ne s _ hgf]
  refine h.revise hp rfl (fun q hq => update_of_ne hq _ _) (fun _ _ => rfl) ?_
    (fun g => ?_) ?_ ?_ ?_ ?_ ?_ (fun c i hpc => absurd hpc (hfork c i)) h.safe ?_
  · intro q hq g hg
    refine file_setFile_of_ne _ _ fun heq => ?_
    rw [heq] at hg
    exact hshared q hq hg
  · have hupdate := descriptors_update (s.ofile p) g hfd (some f)
    rw [hnone, pointsTo_none] at hupdate
    rw [share_goto, share, extra_of_object hobject.1, extra_of_object hobject.2, hloose]
    change ((((s.setFile f { s.file f with ref := (s.file f).ref + 1 }).file g).ref : Nat) : Int) +
      _ = _ + (descriptors (update s.ofile p (update (s.ofile p) fd (some f)) p) g + _)
    rw [ho]
    by_cases hgf : g = f
    · subst hgf
      rw [pointsTo_self] at hupdate
      rw [file_setFile_self]
      dsimp only
      omega
    · rw [pointsTo, if_neg fun heq => hgf (some.inj heq).symm] at hupdate
      rw [file_setFile_of_ne s _ hgf]
      omega
  · change pc.Fine _ (update s.ofile p (update (s.ofile p) fd (some f)) p) _
    rw [ho]
    exact hself
  · intro fd' g hfd'
    change update s.ofile p (update (s.ofile p) fd (some f)) p fd' = some g at hfd'
    rw [ho] at hfd'
    obtain ⟨rfl, rfl⟩ | hold := of_update_some hfd'
    · exact ⟨hfd, hlt⟩
    · exact h.facts.bounded p fd' g hold
  · intro q fd' g hq hexit _
    change ((s.setFile f { s.file f with ref := (s.file f).ref + 1 }).file g).type ≠ _
    rw [hkeep]
    change update s.ofile p (update (s.ofile p) fd (some f)) q fd' = some g at hq
    have hbefore : ∀ ff g, s.proc q ≠ .exitObject ff g fd' := not_exit_before hobject.2 rfl hexit
    by_cases hqp : q = p
    · subst hqp
      rw [ho] at hq
      obtain ⟨-, rfl⟩ | hold := of_update_some hq
      · exact htype
      · exact h.facts.typed q fd' g hold hbefore
    · rw [update_of_ne hqp] at hq
      exact h.facts.typed q fd' g hq hbefore
  · intro g hg
    change ((s.setFile f { s.file f with ref := (s.file f).ref + 1 }).file g).ref = 0 at hg
    change ((s.setFile f { s.file f with ref := (s.file f).ref + 1 }).file g).type = _
    rw [hkeep]
    by_cases hgf : g = f
    · subst hgf
      rw [file_setFile_self] at hg
      cases hg
    · rw [file_setFile_of_ne s _ hgf] at hg
      exact h.facts.free g hg
  · intro q i hq
    obtain ⟨hpc, hlt⟩ := hchild q i hq
    refine ⟨hpc, fun fd' hle => ?_⟩
    change update s.ofile p (update (s.ofile p) fd (some f)) p fd' = none
    rw [ho, update_of_ne (Nat.ne_of_gt (Nat.lt_of_lt_of_le hlt hle))]
    exact (h.facts.child q p i hq).2 fd' hle
  · refine h.piped.congr rfl fun pi w => ?_
    have hgoto := tokens_goto_plain ((s.setFd p fd (some f)).setFile f
      { s.file f with ref := (s.file f).ref + 1 }) hp pc hobject pi w
    have hset := (s.setFd p fd (some f)).tokens_setFile hlt
      { s.file f with ref := (s.file f).ref + 1 } pi w
    have hcongr : (s.setFd p fd (some f)).tokens pi w = s.tokens pi w := tokens_congr rfl rfl pi w
    exact hgoto.trans ((Nat.add_right_cancel hset).trans hcongr)

/-! ## Open and pipe -/

/-- A call goes on, with its descriptors and its references as they were. -/
theorem Inv.go (h : Inv s) (hp : p < NPROC) (hpc : s.proc p = before)
    (hloose : pc.loose = before.loose) (hobject : pc.object = none ∧ before.object = none)
    (hbefore : before ≠ .embryo) (hfork : ∀ c i, pc ≠ .forkDup c i)
    (hself : pc.Fine s.file (s.ofile p) (s.saved p)) : Inv (s.goto p pc) := by
  subst hpc
  exact h.goto hp hloose hobject (h.facts.not_child hbefore)
    (fun c i heq => absurd heq (hfork c i)) (fun _ _ => rfl) hself

theorem Inv.fine_of (h : Inv s) (hpc : s.proc p = pc) : pc.Fine s.file (s.ofile p) (s.saved p) :=
  hpc ▸ h.facts.fine p

theorem Inv.blank (h : Inv s) (hlt : f < NFILE) (hf : (s.file f).ref = 0) :
    FilePc.Blank (s.setFile f { s.file f with ref := 1 }).file f := by
  refine ⟨hlt, ?_, ?_⟩
  all_goals rw [file_setFile_self]
  exact h.facts.free f hf

theorem count_singleton (f g : Nat) : [f].count g = if g = f then 1 else 0 := by
  by_cases hgf : g = f
  · rw [if_pos hgf, hgf, List.count_singleton_self]
  · rw [if_neg hgf, List.count_singleton, if_neg (by simpa using Ne.symm hgf)]

theorem pointsTo_some (f g : Nat) : pointsTo (some f) g = [f].count g := by
  rw [pointsTo, count_singleton]
  by_cases hgf : g = f
  · rw [if_pos (congrArg some hgf.symm), if_pos hgf]
    rfl
  · rw [if_neg fun heq => hgf (some.inj heq).symm, if_neg hgf]
    rfl

theorem fdalloc_some (h : s.fdalloc p = some fd) : fd < NOFILE ∧ s.ofile p fd = none := by
  have hnone := find?_some h
  exact ⟨mem_range.mp (mem_of_find?_eq_some h), of_decide_eq_true hnone⟩

theorem descriptors_set (hfd : fd < NOFILE) (hnone : o fd = none) (f g : Nat) :
    descriptors (update o fd (some f)) g = descriptors o g + [f].count g := by
  have hupdate := descriptors_update o g hfd (some f)
  rw [hnone, pointsTo_none, pointsTo_some] at hupdate
  omega

section

variable (h : Inv s) (hp : p < NPROC)
include h hp

/-- A call asks for an entry; `fail` is what happens when the table is full. -/
theorem Inv.allocating (hpc : s.proc p = before)
    (hbefore : before ≠ .embryo ∧ before.object = none) {fail : Ftable} (hfail : Inv fail)
    (pc : Nat → FilePc) (hobject : ∀ f, (pc f).object = none)
    (hfork : ∀ f c i, pc f ≠ .forkDup c i)
    (hloose : ∀ f g, (pc f).loose.count g = before.loose.count g + if g = f then 1 else 0)
    (hself : ∀ f, f < NFILE → (s.file f).ref = 0 →
      (pc f).Fine (s.setFile f { s.file f with ref := 1 }).file (s.ofile p) (s.saved p))
    (hstep : (match s.filealloc with
      | none => some fail
      | some (f, s1) => some (s1.goto p (pc f))) = some s') : Inv s' := by
  subst hpc
  cases halloc : s.filealloc with
  | none =>
    rw [halloc] at hstep
    cases hstep
    exact hfail
  | some r =>
    obtain ⟨f, s1⟩ := r
    rw [halloc] at hstep
    cases hstep
    obtain ⟨hlt, hzero, rfl⟩ := filealloc_some halloc
    exact h.filealloc hp hlt hzero ⟨hobject f, hbefore.2⟩ hbefore.1 (hfork f) (hloose f)
      (hself f hlt hzero)

theorem Inv.openAlloc {o : Opened} (hpc : s.proc p = .openAlloc o)
    (hstep : s.step p input = some s') : Inv s' := by
  rw [step, hpc] at hstep
  have hfine := h.fine_of hpc
  refine h.allocating hp hpc ⟨nofun, rfl⟩ ?_ (.openFd o) (fun _ => rfl) nofun ?_ ?_ hstep
  · exact h.go hp hpc rfl ⟨rfl, rfl⟩ nofun nofun fun _ => hfine
  · exact fun f g => (count_singleton f g).trans (Nat.zero_add _).symm
  · exact fun f hlt hzero => ⟨hfine, h.blank hlt hzero⟩

theorem Inv.pipeAlloc (hpc : s.proc p = .pipeAlloc) (hstep : s.step p input = some s') :
    Inv s' := by
  rw [step, hpc] at hstep
  have hfine := h.fine_of hpc
  refine h.allocating hp hpc ⟨nofun, rfl⟩ ?_ .pipeAlloc1 (fun _ => rfl) nofun ?_ ?_ hstep
  · exact h.go hp hpc rfl ⟨rfl, rfl⟩ nofun nofun fun _ => hfine
  · exact fun f g => (count_singleton f g).trans (Nat.zero_add _).symm
  · exact fun f hlt hzero => ⟨hfine, h.blank hlt hzero⟩

theorem Inv.pipeAlloc1 (hpc : s.proc p = .pipeAlloc1 rf) (hstep : s.step p input = some s') :
    Inv s' := by
  rw [step, hpc] at hstep
  obtain ⟨hsaved, hblank⟩ := h.fine_of hpc
  refine h.allocating hp hpc ⟨nofun, rfl⟩ ?_ (.pipePage rf) (fun _ => rfl) nofun ?_ ?_ hstep
  · refine h.go hp hpc rfl ⟨rfl, rfl⟩ nofun nofun ⟨hsaved, nodup_singleton rf, ?_⟩
    intro f hf
    obtain rfl := mem_singleton.mp hf
    exact hblank.mine
  · intro wf g
    change count g ([rf] ++ [wf]) = count g [rf] + _
    rw [count_append, count_singleton wf]
  · intro wf hlt hzero
    have hne : rf ≠ wf := by
      rintro rfl
      cases hblank.ref.symm.trans hzero
    exact ⟨hsaved, hne, hblank.congr (file_setFile_of_ne s _ hne), h.blank hlt hzero⟩

end

theorem type_openFile (file : File) (o : Opened) :
    (openFile file o).type ≠ .FD_NONE ∧ (openFile file o).type ≠ .FD_PIPE := by
  rw [openFile]
  cases o.device.isSome <;> exact ⟨nofun, nofun⟩

/-- `sys_open` has its descriptor and fills in the entry. -/
theorem Inv.opened (h : Inv s) (hp : p < NPROC) {o : Opened} (hpc : s.proc p = .openFd o f)
    (hfd : fd < NOFILE) (hnone : s.ofile p fd = none) :
    Inv (((s.setFd p fd (some f)).setFile f (openFile (s.file f) o)).goto p (.returned fd)) := by
  obtain ⟨-, hblank⟩ := h.fine_of hpc
  have hobject : (s.proc p).object = none := by
    rw [hpc]
    rfl
  refine h.fill hp (.returned fd) (update s.file f (openFile (s.file f) o)) s.pipe
    (update (s.ofile p) fd (some f)) ⟨rfl, hobject⟩ (by rw [hpc]; nofun) nofun
    (fun g => ?_) (fun g => ?_) (fun fd' g hg => ?_) (fun fd' g hg => ?_) (fun hneg => ?_) ?_
  · by_cases hgf : g = f
    · subst hgf
      rw [update_self, hpc]
      exact .inr ⟨mem_singleton_self g, rfl, (type_openFile _ o).1⟩
    · exact .inl (update_of_ne hgf _ _)
  · rw [descriptors_set hfd hnone, hpc]
    exact (Int.add_zero _).symm
  · obtain ⟨rfl, rfl⟩ | hold := of_update_some hg
    · exact ⟨hfd, hblank.lt⟩
    · exact h.facts.bounded p fd' g hold
  · by_cases hgf : g = f
    · subst hgf
      rw [update_self]
      exact (type_openFile _ o).1
    · rw [update_of_ne hgf]
      obtain ⟨-, heq⟩ | hold := of_update_some hg
      · exact absurd heq hgf
      · exact h.facts.typed p fd' g hold (by rw [hpc]; nofun)
  · exact absurd hneg (by omega)
  · refine h.piped.congr rfl fun pi w => ?_
    have hgoto := tokens_goto_plain (s.setFile f (openFile (s.file f) o)) hp (.returned fd)
      ⟨rfl, hobject⟩ pi w
    have hset := s.tokens_setFile hblank.lt (openFile (s.file f) o) pi w
    rw [token_of_not_pipe (type_openFile _ o).2, token_of_not_pipe (by rw [hblank.type]; nofun),
      Nat.add_zero, Nat.add_zero] at hset
    exact hgoto.trans hset

theorem Inv.openFd (h : Inv s) (hp : p < NPROC) {o : Opened} (hpc : s.proc p = .openFd o f)
    (hstep : s.step p input = some s') : Inv s' := by
  rw [step, hpc] at hstep
  obtain ⟨hsaved, hblank⟩ := h.fine_of hpc
  cases hfd : s.fdalloc p with
  | none =>
    rw [hfd] at hstep
    cases hstep
    refine h.go hp hpc rfl ⟨rfl, rfl⟩ nofun nofun ⟨hsaved, nodup_singleton f, ?_⟩
    intro g hg
    obtain rfl := mem_singleton.mp hg
    exact hblank.mine
  | some fd =>
    rw [hfd] at hstep
    cases hstep
    obtain ⟨hlt, hnone⟩ := fdalloc_some hfd
    exact h.opened hp hpc hlt hnone

theorem token_pipeFile (file : File) (pi pi' : Nat) (w w' : Bool) :
    token (pipeFile file pi w) pi' w' = if pi = pi' ∧ w = w' then 1 else 0 := by
  rw [token, pipeFile]
  simp

/-- The entries of the two ends of a pipe on page `pi`. -/
def pipeFiles (s : Ftable) (rf wf pi : Nat) : Ftable :=
  (s.setFile rf (pipeFile (s.file rf) pi false)).setFile wf (pipeFile (s.file wf) pi true)

theorem tokens_pipeFiles (s : Ftable) (hne : rf ≠ wf) (hrf : FilePc.Blank s.file rf)
    (hwf : FilePc.Blank s.file wf) (pi pi' : Nat) (w : Bool) :
    (s.pipeFiles rf wf pi).tokens pi' w = s.tokens pi' w + if pi = pi' then 1 else 0 := by
  have hread := s.tokens_setFile hrf.lt (pipeFile (s.file rf) pi false) pi' w
  have hwrite := (s.setFile rf (pipeFile (s.file rf) pi false)).tokens_setFile hwf.lt
    (pipeFile (s.file wf) pi true) pi' w
  rw [file_setFile_of_ne s _ hne.symm, token_pipeFile,
    token_of_not_pipe (by rw [hwf.type]; nofun)] at hwrite
  rw [token_pipeFile, token_of_not_pipe (by rw [hrf.type]; nofun)] at hread
  rw [pipeFiles]
  by_cases hpi : pi = pi'
  · subst hpi
    rw [if_pos rfl]
    cases w <;> simp only [true_and, reduceCtorEq, if_true, if_false] at hread hwrite <;> omega
  · simp only [hpi, false_and, if_false] at hread hwrite ⊢
    omega

theorem end_of_blank {file : Nat → File} (h : FilePc.Blank s.file f)
    (hfile : file f = pipeFile (s.file f) pi w) : FilePc.End file f pi w := by
  refine ⟨h.lt, ?_, ?_, ?_, ?_⟩
  all_goals rw [hfile]
  · exact h.ref
  all_goals rfl

/-- `pipealloc` has its page and fills in the two entries. -/
theorem Inv.pipeMade (h : Inv s) (hp : p < NPROC) (hpc : s.proc p = .pipePage rf wf)
    (hpi : s.pipe pi = none) :
    Inv (({ s with pipe := update s.pipe pi (some ⟨true, true⟩) }.pipeFiles rf wf pi).goto p
      (.pipeFd rf wf pi)) := by
  obtain ⟨hsaved, hne, hrf, hwf⟩ := h.fine_of hpc
  have hobject : (s.proc p).object = none := by
    rw [hpc]
    rfl
  have hread : (s.pipeFiles rf wf pi).file rf = pipeFile (s.file rf) pi false := by
    rw [pipeFiles, file_setFile_of_ne _ _ hne, file_setFile_self]
  have hwrite : (s.pipeFiles rf wf pi).file wf = pipeFile (s.file wf) pi true := by
    rw [pipeFiles, file_setFile_self]
  have hother : ∀ g, g ≠ rf → g ≠ wf → (s.pipeFiles rf wf pi).file g = s.file g := by
    intro g hgr hgw
    rw [pipeFiles, file_setFile_of_ne _ _ hgw, file_setFile_of_ne _ _ hgr]
  have htyped : ∀ g, (s.file g).type ≠ .FD_NONE → (s.pipeFiles rf wf pi).file g = s.file g := by
    intro g hg
    refine hother g ?_ ?_
    · rintro rfl
      exact hg hrf.type
    · rintro rfl
      exact hg hwf.type
  have hold : ∀ fd g, s.ofile p fd = some g → (s.file g).type ≠ .FD_NONE := by
    intro fd g hg
    exact h.facts.typed p fd g hg (by rw [hpc]; nofun)
  have hsame : update s.ofile p (s.ofile p) = s.ofile := update_eq_self p s.ofile
  have hinv := h.fill hp (.pipeFd rf wf pi) (s.pipeFiles rf wf pi).file
    (update s.pipe pi (some ⟨true, true⟩)) (s.ofile p) ⟨rfl, hobject⟩
    (by rw [hpc]; nofun) nofun (fun g => ?_) (fun g => by rw [hpc]; rfl) (h.facts.bounded p)
    (fun fd g hg => ?_) ⟨hsaved, hne, ?_, ?_⟩ ⟨fun pi' w => ?_, fun pi' ends hends => ?_⟩
  · rw [hsame] at hinv
    exact hinv
  · rw [hpc]
    by_cases hgr : g = rf
    · subst hgr
      rw [hread]
      exact .inr ⟨mem_cons_self, rfl, nofun⟩
    · by_cases hgw : g = wf
      · subst hgw
        rw [hwrite]
        exact .inr ⟨mem_cons_of_mem _ (mem_singleton_self g), rfl, nofun⟩
      · exact .inl (hother g hgr hgw)
  · rw [htyped g (hold fd g hg)]
    exact hold fd g hg
  · exact end_of_blank hrf hread
  · exact end_of_blank hwf hwrite
  · have htokens := s.tokens_pipeFiles hne hrf hwf pi pi' w
    have hgoto := tokens_goto_plain { s.pipeFiles rf wf pi with
      pipe := update s.pipe pi (some ⟨true, true⟩) } hp (.pipeFd rf wf pi)
      ⟨rfl, hobject⟩ pi' w
    have hcongr : Ftable.tokens { s.pipeFiles rf wf pi with
        pipe := update s.pipe pi (some ⟨true, true⟩) } pi' w =
        (s.pipeFiles rf wf pi).tokens pi' w := tokens_congr rfl rfl pi' w
    refine hgoto.trans (hcongr.trans (htokens.trans ?_))
    rw [h.piped.tokens]
    change _ = openEnd { s with pipe := update s.pipe pi (some ⟨true, true⟩) } pi' w
    rw [openEnd, openEnd]
    dsimp only
    by_cases heq : pi = pi'
    · subst heq
      rw [if_pos rfl, hpi, update_self]
      cases w <;> rfl
    · rw [if_neg heq, Nat.add_zero, update_of_ne (Ne.symm heq)]
  · change update s.pipe pi (some ⟨true, true⟩) pi' = some ends at hends
    by_cases heq : pi' = pi
    · subst heq
      rw [update_self] at hends
      cases hends
      exact .inl rfl
    · rw [update_of_ne heq] at hends
      exact h.piped.used pi' ends hends

theorem Inv.pipePage (h : Inv s) (hp : p < NPROC) (hpc : s.proc p = .pipePage rf wf)
    (hstep : s.step p input = some s') : Inv s' := by
  rw [step, hpc] at hstep
  obtain ⟨hsaved, hne, hrf, hwf⟩ := h.fine_of hpc
  cases input with
  | none =>
    cases hstep
    refine h.go hp hpc rfl ⟨rfl, rfl⟩ nofun nofun ⟨hsaved, by simpa using hne, ?_⟩
    exact forall_mem_cons.mpr ⟨hrf.mine, forall_mem_cons.mpr ⟨hwf.mine, forall_mem_nil _⟩⟩
  | some pi =>
    rw [ite_none_right_eq_some] at hstep
    obtain ⟨hpi, heq⟩ := hstep
    cases heq
    exact h.pipeMade hp hpc hpi

theorem setFd_setFd (s : Ftable) (p fd fd' : Nat) (x y : Option Nat) :
    (s.setFd p fd x).setFd p fd' y = { s with
      ofile := update s.ofile p (update (update (s.ofile p) fd x) fd' y) } := by
  rw [setFd, setFd]
  dsimp only
  rw [update_self, update_idem]

/-- The second descriptor is not free: the first one is given back. -/
theorem setFd_back (s : Ftable) (hnone : s.ofile p fd = none) (x : Option Nat) :
    (s.setFd p fd x).setFd p fd none = s := by
  have hsame : update (s.ofile p) fd none = s.ofile p := by
    rw [← hnone]
    exact update_eq_self fd (s.ofile p)
  rw [setFd_setFd, update_idem, hsame, update_eq_self]

theorem descriptors_pair (hne : fd0 ≠ fd1) (hlt : fd0 < NOFILE) (hlt' : fd1 < NOFILE)
    (hnone : o fd0 = none) (hnone' : o fd1 = none) (g : Nat) :
    descriptors (update (update o fd0 (some rf)) fd1 (some wf)) g =
      descriptors o g + [rf, wf].count g := by
  have hpair : [rf, wf].count g = [rf].count g + [wf].count g := by
    rw [← count_append]
    rfl
  rw [descriptors_set hlt' (by rwa [update_of_ne hne.symm]), descriptors_set hlt hnone, hpair]
  omega

theorem Inv.pipeFd (h : Inv s) (hp : p < NPROC) (hpc : s.proc p = .pipeFd rf wf pi) :
    Inv (s.pipeFds p rf wf pi) := by
  obtain ⟨hsaved, hne, hrf, hwf⟩ := h.fine_of hpc
  have hobject : (s.proc p).object = none := by
    rw [hpc]
    rfl
  have hundo : Inv (s.goto p (.undo (some pi) [rf, wf])) := by
    refine h.go hp hpc rfl ⟨rfl, rfl⟩ nofun nofun ⟨hsaved, by simpa using hne, ?_⟩
    exact forall_mem_cons.mpr ⟨hrf.mine, forall_mem_cons.mpr ⟨hwf.mine, forall_mem_nil _⟩⟩
  rw [pipeFds]
  cases hfd : s.fdalloc p with
  | none => exact hundo
  | some fd0 =>
    obtain ⟨hlt, hnone⟩ := fdalloc_some hfd
    dsimp only
    cases hfd' : (s.setFd p fd0 (some rf)).fdalloc p with
    | none =>
      rw [setFd_back s hnone]
      exact hundo
    | some fd1 =>
      obtain ⟨hlt', hnone'⟩ := fdalloc_some hfd'
      change update s.ofile p (update (s.ofile p) fd0 (some rf)) p fd1 = none at hnone'
      rw [update_self] at hnone'
      have hfds : fd1 ≠ fd0 := by
        rintro rfl
        rw [update_self] at hnone'
        cases hnone'
      have hother := hnone'
      rw [update_of_ne hfds] at hother
      dsimp only
      rw [setFd_setFd]
      refine h.setFds hp ⟨rfl, hobject⟩ (by rw [hpc]; nofun) nofun (fun g => ?_) ?_ ?_
        ⟨⟨hne, hrf, hwf⟩, ⟨hfds.symm, hlt, hlt', hsaved ▸ hnone, hsaved ▸ hother⟩, by rw [hsaved]⟩
      · rw [descriptors_pair hfds.symm hlt hlt' hnone hother, hpc]
        exact (Int.add_zero _).symm
      · intro fd g hg
        obtain ⟨rfl, rfl⟩ | hg := of_update_some hg
        · exact ⟨hlt', hwf.lt⟩
        obtain ⟨rfl, rfl⟩ | hg := of_update_some hg
        · exact ⟨hlt, hrf.lt⟩
        exact h.facts.bounded p fd g hg
      · intro fd g hg
        obtain ⟨-, rfl⟩ | hg := of_update_some hg
        · rw [hwf.type]
          nofun
        obtain ⟨-, rfl⟩ | hg := of_update_some hg
        · rw [hrf.type]
          nofun
        exact h.facts.typed p fd g hg (by rw [hpc]; nofun)

theorem Inv.pipeCopy (h : Inv s) (hp : p < NPROC) (hpc : s.proc p = .pipeCopy rf wf pi fd0 fd1)
    (hstep : s.step p input = some s') : Inv s' := by
  rw [step, hpc] at hstep
  obtain ⟨⟨hne, hrf, hwf⟩, ⟨hfds, hlt, hlt', hnone, hnone'⟩, ho⟩ := h.fine_of hpc
  have hobject : (s.proc p).object = none := by
    rw [hpc]
    rfl
  cases input with
  | some _ =>
    cases hstep
    exact h.go hp hpc rfl ⟨rfl, rfl⟩ nofun nofun nofun
  | none =>
    cases hstep
    have hback : update (update (s.ofile p) fd0 none) fd1 none = s.saved p := by
      funext fd
      by_cases hfd1 : fd = fd1
      · subst hfd1
        rw [update_self, hnone']
      rw [update_of_ne hfd1]
      by_cases hfd0 : fd = fd0
      · subst hfd0
        rw [update_self, hnone]
      rw [update_of_ne hfd0, ho, update_of_ne hfd1, update_of_ne hfd0]
    rw [setFd_setFd, hback]
    have hsaved : ∀ fd g, s.saved p fd = some g → s.ofile p fd = some g := by
      intro fd g hg
      rw [ho, update_of_ne, update_of_ne]
      · exact hg
      · rintro rfl
        cases hnone.symm.trans hg
      · rintro rfl
        cases hnone'.symm.trans hg
    refine h.setFds hp ⟨rfl, hobject⟩ (by rw [hpc]; nofun) nofun (fun g => ?_) ?_ ?_
      ⟨rfl, by simpa using hne, ?_⟩
    · rw [ho, descriptors_pair hfds hlt hlt' hnone hnone', hpc]
      exact Int.add_zero _
    · exact fun fd g hg => h.facts.bounded p fd g (hsaved fd g hg)
    · exact fun fd g hg => h.facts.typed p fd g (hsaved fd g hg) (by rw [hpc]; nofun)
    · exact forall_mem_cons.mpr ⟨hrf.mine, forall_mem_cons.mpr ⟨hwf.mine, forall_mem_nil _⟩⟩

/-! ## Closing, exit and fork -/

theorem Inv.closing (h : Inv s) (hp : p < NPROC) (hf : 1 ≤ s.share p f)
    {o : Nat → Nat → Option Nat} (hdone : leftOpen (s.file f) = none →
      Inv (done { s.setFile f (closed (s.file f)) with ofile := o }))
    (hobject : ∀ ff, leftOpen (s.file f) = some ff →
      Inv (object ff { s.setFile f (closed (s.file f)) with ofile := o })) :
    Inv (Ftable.closing { s with ofile := o } f done object) := by
  have href := h.counted.share_le h.facts.share_nonneg (f := f) hp
  have hclose := fileclose_ok (f := f) { s with ofile := o } (by dsimp only; omega)
  rw [Ftable.closing, hclose]
  cases hleft : leftOpen (s.file f) with
  | none => exact hdone hleft
  | some ff => exact hobject ff hleft

theorem Inv.closingObject (h : Inv s) (hp : p < NPROC) (hobject : (s.proc p).object = some ff)
    (hdone : Inv (done { s with pipe := s.closePipe ff })) : Inv (s.closingObject ff done) := by
  rw [Ftable.closingObject, h.closeObject_ok hp hobject]
  exact hdone

theorem pipe_of_leftOpen
    (hobject : file.type = .FD_NONE ∨ file.type = .FD_PIPE ∧ made = some file.pipe)
    (h : leftOpen file = some ff) : ff.type = .FD_PIPE ∧ made = some ff.pipe := by
  rw [leftOpen, ite_none_left_eq_some, some.injEq] at h
  obtain ⟨hopen, rfl⟩ := h
  obtain hnone | hpipe := hobject
  · exact absurd (.inr hnone) hopen
  · exact hpipe

section

variable (h : Inv s) (hp : p < NPROC)
include h hp

/-- A failing call closes a file that it has allocated. -/
theorem Inv.undo {fs : List Nat} (hpc : s.proc p = .undo made (f :: fs)) :
    Inv (s.closing f (fun s' => s'.goto p (.undo made fs))
      fun ff s' => s'.goto p (.undoObject made ff fs)) := by
  obtain ⟨hsaved, hnodup, hmine⟩ := h.fine_of hpc
  obtain ⟨hnotin, hnodup⟩ := nodup_cons.mp hnodup
  obtain ⟨hf, hmine⟩ := forall_mem_cons.mp hmine
  have hshare : 1 ≤ s.share p f := by
    refine h.facts.share_of_owned ?_
    rw [hpc]
    exact mem_cons_self
  have hobject : (s.proc p).object = none := by
    rw [hpc]
    rfl
  have hcount : ∀ g, s.share p g =
      descriptors (s.ofile p) g + fs.count g + pointsTo (some f) g := by
    intro g
    have happend : (f :: fs).count g = [f].count g + fs.count g := by
      rw [← count_append]
      rfl
    rw [share, hpc, extra_of_object rfl, pointsTo_some]
    change _ + (((f :: fs).count g : Nat) : Int) = _
    omega
  have hrest : ∀ g ∈ fs, FilePc.Mine (s.setFile f (closed (s.file f))).file made g := by
    intro g hg
    refine (hmine g hg).congr (file_setFile_of_ne s _ ?_)
    rintro rfl
    exact hnotin hg
  have hstep : ∀ pc : FilePc, pc.object = leftOpen (s.file f) → (∀ c i, pc ≠ .forkDup c i) →
      (∀ g, pc.extra g = fs.count g) →
      pc.Fine (s.setFile f (closed (s.file f))).file (s.ofile p) (s.saved p) →
      Inv ({ s.setFile f (closed (s.file f)) with ofile := s.ofile }.goto p pc) := by
    intro pc hleft hfork hextra hself
    have hinv := h.fileclose hp hf.lt hshare pc hleft hobject (by rw [hpc]; rintro ⟨⟩) hfork
      (fun g => by rw [hextra]; exact hcount g) (fun _ _ hfd => hfd) hself
    rwa [update_eq_self] at hinv
  refine h.closing hp hshare (o := s.ofile) (fun hleft => ?_) (fun ff hleft => ?_)
  · exact hstep _ hleft.symm (by rintro _ _ ⟨⟩) (fun g => extra_of_object rfl g) ⟨hsaved, hnodup, hrest⟩
  · refine hstep _ hleft.symm (by rintro _ _ ⟨⟩) (fun g => ?_)
      ⟨⟨hsaved, hnodup, hrest⟩, pipe_of_leftOpen hf.object hleft⟩
    exact Int.sub_zero _

theorem Inv.objectClosed (hobject : (s.proc p).object = some ff)
    (hexit : ∀ ff g i, s.proc p ≠ .exitObject ff g i) (hobject' : pc.object = none)
    (hfork : ∀ c i, pc ≠ .forkDup c i) (hloose : pc.loose = (s.proc p).loose)
    (hself : pc.Fine s.file (s.ofile p) (s.saved p)) :
    Inv (s.closingObject ff fun s' => s'.goto p pc) := by
  refine h.closingObject hp hobject ?_
  have hinv := h.closeObject hp hobject hobject' hfork (o := s.ofile p) (fun g => ?_)
    (fun fd g hg => ⟨hg, fun ff g => hexit ff g fd⟩) hself
  · rw [update_eq_self] at hinv
    exact hinv
  · have hnone : (s.proc p).returnedRef = none := by
      cases hpc : s.proc p with
      | exitObject ff g i => exact absurd hpc (hexit ff g i)
      | _ => rfl
    rw [share, extra_of_object hobject', FilePc.extra, hnone, pointsTo_none, hloose, Int.sub_zero]

/-- `kexit` closes descriptor `i`. -/
theorem Inv.exitRound (hpc : s.proc p = .exitFd i) (hi : i < NOFILE) : Inv (s.exitRound p i) := by
  have hfine := h.fine_of hpc
  have hobject : (s.proc p).object = none := by
    rw [hpc]
    rfl
  rw [Ftable.exitRound]
  cases hfd : s.ofile p i with
  | none =>
    refine h.go hp hpc rfl ⟨rfl, rfl⟩ (by rintro ⟨⟩) (by rintro _ _ ⟨⟩) fun fd hlt => ?_
    obtain hlt | rfl := Nat.lt_succ_iff_lt_or_eq.mp hlt
    · exact hfine fd hlt
    · exact hfd
  | some f =>
    have hlt := (h.facts.bounded p i f hfd).2
    have hshare : 1 ≤ s.share p f := h.facts.share_of_fd hfd (by rw [hpc]; rintro _ _ ⟨⟩)
    have hplain : ∀ g, s.share p g = descriptors (s.ofile p) g := by
      intro g
      rw [share, hpc, extra_of_object rfl]
      exact Int.add_zero _
    refine h.closing hp hshare (o := s.ofile) (fun hleft => ?_) (fun ff hleft => ?_)
    · refine h.fileclose hp hlt hshare _ (o := update (s.ofile p) i none) hleft.symm
        hobject (by rw [hpc]; rintro ⟨⟩) (by rintro _ _ ⟨⟩) (fun g => ?_) (fun fd g hg => ?_) fun fd hfd' => ?_
      · have hupdate := descriptors_update (s.ofile p) g hi none
        rw [hfd, pointsTo_none] at hupdate
        rw [hplain, extra_of_object rfl]
        change _ = _ + 0 + _
        omega
      · by_cases heq : fd = i
        · subst heq
          rw [update_self] at hg
          cases hg
        · rwa [update_of_ne heq] at hg
      · by_cases heq : fd = i
        · subst heq
          exact update_self _ _ _
        · rw [update_of_ne heq]
          exact hfine fd (by omega)
    · have hinv := h.fileclose hp hlt hshare (.exitObject ff f i) (o := s.ofile p)
        hleft.symm hobject (by rw [hpc]; rintro ⟨⟩) (by rintro _ _ ⟨⟩) (fun g => ?_) (fun _ _ hg => hg)
        ⟨hfine, hfd, hi⟩
      · rwa [update_eq_self] at hinv
      · rw [hplain, FilePc.extra]
        change _ = _ + (0 - pointsTo (some f) g) + _
        omega

/-- `kexit` clears the descriptor once the object is closed. -/
theorem Inv.exitObject (hpc : s.proc p = .exitObject ff f i) :
    Inv (s.closingObject ff fun s' => (s'.setFd p i none).goto p (.exitFd (i + 1))) := by
  obtain ⟨hfine, hfd, hi⟩ := h.fine_of hpc
  have hobject : (s.proc p).object = some ff := by
    rw [hpc]
    rfl
  refine h.closingObject hp hobject ?_
  refine h.closeObject hp hobject rfl nofun (o := update (s.ofile p) i none)
    (fun g => ?_) (fun fd g hg => ?_) fun fd hlt => ?_
  · rw [share, hpc, share_of_exit hi hfd, extra_of_object rfl]
    exact (Int.add_zero _).symm
  · have hne : fd ≠ i := by
      rintro rfl
      rw [update_self] at hg
      cases hg
    rw [update_of_ne hne] at hg
    refine ⟨hg, fun ff' g' heq => ?_⟩
    rw [hpc] at heq
    cases heq
    exact hne rfl
  · by_cases heq : fd = i
    · subst heq
      exact update_self _ _ _
    · rw [update_of_ne heq]
      exact hfine fd (by omega)

/-- `kfork` copies descriptor `i` to the child. -/
theorem Inv.forkRound (hpc : s.proc p = .forkDup c i) (hi : i < NOFILE) :
    Inv (s.forkRound p c i) := by
  obtain ⟨hembryo, hnone⟩ := h.facts.child p c i hpc
  have hcp : c ≠ p := by
    rintro rfl
    cases hpc.symm.trans hembryo
  have hclt : c < NPROC := h.facts.procs c (by rw [hembryo]; nofun)
  -- the parent's step first: the child's descriptor `i` is still free
  have hgo : Inv (s.goto p (.forkDup c (i + 1))) := by
    refine h.goto hp (by rw [hpc]; rfl) ⟨rfl, by rw [hpc]; rfl⟩
      (h.facts.not_child (by rw [hpc]; nofun)) ?_ (fun _ _ => rfl) trivial
    intro c' i' heq
    cases heq
    refine ⟨hcp, hembryo, fun fd hle => hnone fd (by omega), fun q j hq hfork => ?_⟩
    exact hq (h.facts.parent q p c j i hfork hpc)
  rw [Ftable.forkRound]
  cases hfd : s.ofile p i with
  | none => exact hgo
  | some f =>
    have hexit : ∀ ff g, s.proc p ≠ .exitObject ff g i := by
      rw [hpc]
      nofun
    have hshare : 1 ≤ s.share p f := h.facts.share_of_fd hfd hexit
    have href := h.counted.share_le h.facts.share_nonneg (f := f) hp
    have hshared : ∀ q, f ∉ ((s.goto p (.forkDup c (i + 1))).proc q).owned := by
      intro q
      change f ∉ (update s.proc p (.forkDup c (i + 1)) q).owned
      by_cases hqp : q = p
      · subst hqp
        rw [update_self]
        exact not_mem_nil
      · rw [update_of_ne hqp]
        exact h.facts.not_owned h.counted hp hqp hshare
    have hc : (s.goto p (.forkDup c (i + 1))).proc c = .embryo := by
      rw [← hembryo]
      exact update_of_ne hcp _ _
    have hinv := hgo.filedup hclt .embryo hi (hnone i le_rfl)
      (h.facts.bounded p i f hfd).2 (h.facts.typed p i f hfd hexit) (fun q _ => hshared q)
      ⟨rfl, by rw [hc]; rfl⟩ (by rw [hc]) (fun q j hq => ?_) nofun trivial
    · have hsame : update (s.goto p (.forkDup c (i + 1))).proc c .embryo =
          (s.goto p (.forkDup c (i + 1))).proc := by
        rw [← hc, update_eq_self]
      dsimp only
      rw [Ftable.filedup, if_neg (by omega)]
      rw [Ftable.goto, setFile, setFd] at hinv
      rw [hsame] at hinv
      exact hinv
    · by_cases hqp : q = p
      · subst hqp
        have hsame : (s.goto q (.forkDup c (i + 1))).proc q = .forkDup c (i + 1) :=
          update_self _ _ _
        rw [hsame] at hq
        cases hq
        exact ⟨rfl, Nat.lt_succ_self i⟩
      · have hsame : (s.goto p (.forkDup c (i + 1))).proc q = s.proc q := update_of_ne hqp _ _
        rw [hsame] at hq
        exact absurd (h.facts.parent q p c j i hq hpc) hqp

/-- `kfork` is done: the child may run. -/
theorem Inv.forkDone (hpc : s.proc p = .forkDup c i) :
    Inv ((s.goto c (.returned 0)).goto p (.returned (c + 1))) := by
  obtain ⟨hembryo, -⟩ := h.facts.child p c i hpc
  have hcp : c ≠ p := by
    rintro rfl
    cases hpc.symm.trans hembryo
  have hclt : c < NPROC := h.facts.procs c (by rw [hembryo]; rintro ⟨⟩)
  have hparent : Inv (s.goto p (.returned (c + 1))) := by
    refine h.go hp hpc rfl ⟨rfl, rfl⟩ (by rintro ⟨⟩) (by rintro _ _ ⟨⟩) fun hneg => ?_
    exact absurd hneg (by omega)
  have hc : (s.goto p (.returned (c + 1))).proc c = .embryo := by
    rw [← hembryo]
    exact update_of_ne hcp _ _
  have hcomm : (s.goto c (.returned 0)).goto p (.returned (c + 1)) =
      (s.goto p (.returned (c + 1))).goto c (.returned 0) := by
    rw [Ftable.goto, Ftable.goto, Ftable.goto, Ftable.goto]
    rw [update_comm hcp]
  rw [hcomm]
  refine hparent.goto hclt (by rw [hc]; rfl) ⟨rfl, by rw [hc]; rfl⟩ (fun q j hq => ?_) (by rintro _ _ ⟨⟩)
    (fun _ _ => rfl) (by rintro ⟨⟩)
  by_cases hqp : q = p
  · subst hqp
    have hsame : (s.goto q (.returned (c + 1))).proc q = .returned (c + 1) := update_self _ _ _
    cases hsame.symm.trans hq
  · have hsame : (s.goto p (.returned (c + 1))).proc q = s.proc q := update_of_ne hqp _ _
    rw [hsame] at hq
    exact hqp (h.facts.parent q p c j i hq hpc)

/-- A step of a call keeps the invariant. -/
theorem Inv.step (hstep : s.step p input = some s') : Inv s' := by
  cases hpc : s.proc p with
  | unused | embryo | zombie | returned r =>
    rw [Ftable.step, hpc] at hstep
    cases hstep
  | openAlloc o => exact h.openAlloc hp hpc hstep
  | openFd o f => exact h.openFd hp hpc hstep
  | pipeAlloc => exact h.pipeAlloc hp hpc hstep
  | pipeAlloc1 rf => exact h.pipeAlloc1 hp hpc hstep
  | pipePage rf wf => exact h.pipePage hp hpc hstep
  | pipeFd rf wf pi =>
    rw [Ftable.step, hpc] at hstep
    cases hstep
    exact h.pipeFd hp hpc
  | pipeCopy rf wf pi fd0 fd1 => exact h.pipeCopy hp hpc hstep
  | undo made fs =>
    cases fs with
    | nil =>
      rw [Ftable.step, hpc] at hstep
      cases hstep
      exact h.go hp hpc rfl ⟨rfl, rfl⟩ nofun nofun fun _ => (h.fine_of hpc).1
    | cons f fs =>
      rw [Ftable.step, hpc] at hstep
      cases hstep
      exact h.undo hp hpc
  | undoObject made ff fs =>
    rw [Ftable.step, hpc] at hstep
    cases hstep
    exact h.objectClosed hp (by rw [hpc]; rfl) (by rw [hpc]; nofun) rfl nofun (by rw [hpc]; rfl)
      (h.fine_of hpc).1
  | closeObject ff =>
    rw [Ftable.step, hpc] at hstep
    cases hstep
    exact h.objectClosed hp (by rw [hpc]; rfl) (by rw [hpc]; nofun) rfl nofun (by rw [hpc]; rfl)
      nofun
  | forkDup c i =>
    rw [Ftable.step, hpc] at hstep
    dsimp only at hstep
    split at hstep
    · next hi =>
      cases hstep
      exact h.forkRound hp hpc hi
    · cases hstep
      exact h.forkDone hp hpc
  | exitFd i =>
    rw [Ftable.step, hpc] at hstep
    dsimp only at hstep
    split at hstep
    · next hi =>
      cases hstep
      exact h.exitRound hp hpc hi
    · next hi =>
      cases hstep
      refine h.go hp hpc rfl ⟨rfl, rfl⟩ nofun nofun fun fd => ?_
      by_cases hlt : fd < i
      · exact h.fine_of hpc fd hlt
      · cases hfd : s.ofile p fd with
        | none => rfl
        | some f => exact absurd (h.facts.bounded p fd f hfd).1 (by omega)
  | exitObject ff f i =>
    rw [Ftable.step, hpc] at hstep
    cases hstep
    exact h.exitObject hp hpc

end

/-! ## System calls -/

/-- A call begins: the descriptors are recorded. -/
theorem Inv.begin (h : Inv s) (hp : p < NPROC) {r : Int} (hpc : s.proc p = .returned r) :
    Inv { s with saved := update s.saved p (s.ofile p) } := by
  have hinv : Inv ({ s with saved := update s.saved p (s.ofile p) }.goto p (.returned r)) := by
    refine h.goto hp (by rw [hpc]) ⟨rfl, by rw [hpc]; rfl⟩
      (h.facts.not_child (by rw [hpc]; nofun)) (by nofun)
      (fun q hq => update_of_ne hq _ _) fun _ => ?_
    rw [update_self]
  rw [← hpc, Ftable.goto] at hinv
  rwa [update_eq_self] at hinv

theorem argfd_some {fd : Int} (h : s.argfd p fd = some (i, f)) :
    i < NOFILE ∧ s.ofile p i = some f := by
  rw [argfd, ite_none_right_eq_some] at h
  obtain ⟨hfd, hmap⟩ := h
  rw [map_eq_some_iff] at hmap
  obtain ⟨g, hg, heq⟩ := hmap
  cases heq
  exact ⟨by omega, hg⟩

section Calls

variable {r : Int} (h : Inv s) (hp : p < NPROC) (hpc : s.proc p = .returned r)
  (hsaved : s.ofile p = s.saved p)

include h hp hpc

section

variable (hsaved : s.ofile p = s.saved p)
include hsaved

/-- A call returns at once, with any value. -/
theorem Inv.answer (r' : Int) : Inv (s.goto p (.returned r')) :=
  h.go hp hpc rfl ⟨rfl, rfl⟩ nofun nofun fun _ => hsaved

theorem Inv.sysOpen (found : Option Opened) : Inv (s.sysOpen p found) := by
  have hopen : ∀ o, Inv (s.goto p (.openAlloc o)) := fun o =>
    h.go hp hpc rfl ⟨rfl, rfl⟩ nofun nofun hsaved
  cases found with
  | none => exact h.answer hp hpc hsaved (-1)
  | some o =>
    rw [Ftable.sysOpen]
    split
    · exact hopen o
    · split
      · exact h.answer hp hpc hsaved (-1)
      · exact hopen o

theorem Inv.sysDup (fd : Int) : Inv (s.sysDup p fd) := by
  rw [Ftable.sysDup]
  cases harg : s.argfd p fd with
  | none => exact h.answer hp hpc hsaved (-1)
  | some a =>
    obtain ⟨i, f⟩ := a
    obtain ⟨hi, hfd⟩ := argfd_some harg
    have hexit : ∀ ff g, s.proc p ≠ .exitObject ff g i := by
      rw [hpc]
      nofun
    have hshare : 1 ≤ s.share p f := h.facts.share_of_fd hfd hexit
    have href := h.counted.share_le h.facts.share_nonneg (f := f) hp
    cases halloc : s.fdalloc p with
    | none => exact h.answer hp hpc hsaved (-1)
    | some fd' =>
      obtain ⟨hlt, hnone⟩ := fdalloc_some halloc
      have hpos : ¬ ((s.setFd p fd' (some f)).file f).ref < 1 := by
        change ¬ (s.file f).ref < 1
        omega
      dsimp only
      rw [Ftable.filedup, if_neg hpos]
      refine h.filedup hp _ hlt hnone (h.facts.bounded p i f hfd).2 (h.facts.typed p i f hfd hexit)
        (fun q hq => h.facts.not_owned h.counted hp hq hshare) ⟨rfl, by rw [hpc]; rfl⟩
        (by rw [hpc]; rfl)
        (fun q j hq => absurd hq (h.facts.not_child (by rw [hpc]; nofun) q j)) nofun
        fun hneg => absurd hneg (by omega)

theorem Inv.sysClose (fd : Int) : Inv (s.sysClose p fd) := by
  rw [Ftable.sysClose]
  cases harg : s.argfd p fd with
  | none => exact h.answer hp hpc hsaved (-1)
  | some a =>
    obtain ⟨i, f⟩ := a
    obtain ⟨hi, hfd⟩ := argfd_some harg
    have hshare : 1 ≤ s.share p f := h.facts.share_of_fd hfd (by rw [hpc]; rintro _ _ ⟨⟩)
    have hstep : ∀ pc : FilePc, pc.object = leftOpen (s.file f) → (∀ c i, pc ≠ .forkDup c i) →
        (∀ g, pc.extra g = 0) →
        pc.Fine (s.setFile f (closed (s.file f))).file (update (s.ofile p) i none) (s.saved p) →
        Inv ({ s.setFile f (closed (s.file f)) with
          ofile := update s.ofile p (update (s.ofile p) i none) }.goto p pc) := by
      intro pc hleft hfork hextra hself
      refine h.fileclose hp (h.facts.bounded p i f hfd).2 hshare pc hleft (by rw [hpc]; rfl)
        (by rw [hpc]; rintro ⟨⟩) hfork (fun g => ?_) (fun fd g hg => ?_) hself
      · have hupdate := descriptors_update (s.ofile p) g hi none
        rw [hfd, pointsTo_none] at hupdate
        rw [share, hpc, extra_of_object rfl, hextra]
        change _ + 0 = _
        omega
      · by_cases heq : fd = i
        · subst heq
          rw [update_self] at hg
          cases hg
        · rwa [update_of_ne heq] at hg
    refine h.closing hp hshare (fun hleft => ?_) fun ff hleft => ?_
    · exact hstep _ hleft.symm (by rintro _ _ ⟨⟩) (fun g => extra_of_object rfl g) (by rintro ⟨⟩)
    · exact hstep _ hleft.symm (by rintro _ _ ⟨⟩) (fun g => rfl) trivial

theorem Inv.fileAccess (allowed : File → Bool) (message : String) (fd r' : Int) :
    Inv (s.fileAccess p allowed message fd r') := by
  rw [Ftable.fileAccess]
  cases harg : s.argfd p fd with
  | none => exact h.answer hp hpc hsaved (-1)
  | some a =>
    obtain ⟨i, f⟩ := a
    obtain ⟨-, hfd⟩ := argfd_some harg
    dsimp only
    split
    · exact h.answer hp hpc hsaved (-1)
    · rw [if_neg (h.facts.typed p i f hfd (by rw [hpc]; nofun))]
      exact h.answer hp hpc hsaved r'

theorem Inv.sysFork {child : Option Nat} (hstep : s.sysFork p child = some s') : Inv s' := by
  cases child with
  | none =>
    cases hstep
    exact h.answer hp hpc hsaved (-1)
  | some c =>
    rw [Ftable.sysFork, ite_none_right_eq_some] at hstep
    obtain ⟨⟨hc, hunused⟩, heq⟩ := hstep
    cases heq
    have hnone : ∀ fd, s.ofile c fd = none := h.fine_of hunused
    have hcp : c ≠ p := by
      rintro rfl
      cases hpc.symm.trans hunused
    have hchild : Inv (s.goto c .embryo) := h.go hc hunused rfl ⟨rfl, rfl⟩ nofun nofun trivial
    have hsame : ∀ q, q ≠ c → (s.goto c .embryo).proc q = s.proc q := fun q hq =>
      update_of_ne hq _ _
    have hnew : (s.goto c .embryo).proc c = .embryo := update_self _ _ _
    have hnot : ∀ q j, (s.goto c .embryo).proc q ≠ .forkDup c j := by
      intro q j hq
      by_cases hqc : q = c
      · subst hqc
        cases hnew.symm.trans hq
      · rw [hsame q hqc] at hq
        exact h.facts.not_child (by rw [hunused]; nofun) q j hq
    refine hchild.goto hp ?_ ⟨rfl, ?_⟩ (hchild.facts.not_child ?_) ?_ (fun _ _ => rfl) trivial
    all_goals try rw [hsame p hcp.symm, hpc]
    · rfl
    · rfl
    · nofun
    · intro c' i heq
      cases heq
      exact ⟨hcp, hnew, fun fd _ => hnone fd, fun q j _ => hnot q j⟩

end

end Calls

theorem call_some {body : Ftable → Option Ftable} (h : s.call p body = some s') :
    p < NPROC ∧ ∃ r, s.proc p = .returned r ∧
      body { s with saved := update s.saved p (s.ofile p) } = some s' := by
  rw [call, ite_none_right_eq_some] at h
  obtain ⟨hp, hbody⟩ := h
  split at hbody
  · next r hpc => exact ⟨hp, r, hpc, hbody⟩
  · cases hbody

/-- Every event keeps the invariant. -/
theorem Inv.next (h : Inv s) (hnext : s.next e = some s') : Inv s' := by
  have hcall : ∀ {p : Nat} {body : Ftable → Option Ftable}, s.call p body = some s' →
      (∀ {s1 r}, Inv s1 → p < NPROC → s1.proc p = .returned r → s1.ofile p = s1.saved p →
        body s1 = some s' → Inv s') → Inv s' := by
    intro p body hstep hbody
    obtain ⟨hp, r, hpc, heq⟩ := call_some hstep
    refine hbody (h.begin hp hpc) hp hpc ?_ heq
    dsimp only
    rw [update_self]
  unfold Ftable.next at hnext
  rw [if_neg (by rw [h.safe]; nofun)] at hnext
  cases e with
  | sysOpen p found =>
    refine hcall hnext fun h1 hp hpc hsaved heq => ?_
    cases heq
    exact h1.sysOpen hp hpc hsaved found
  | sysDup p fd =>
    refine hcall hnext fun h1 hp hpc hsaved heq => ?_
    cases heq
    exact h1.sysDup hp hpc hsaved fd
  | sysPipe p =>
    refine hcall hnext fun h1 hp hpc hsaved heq => ?_
    cases heq
    exact h1.go hp hpc rfl ⟨rfl, rfl⟩ nofun nofun hsaved
  | sysClose p fd =>
    refine hcall hnext fun h1 hp hpc hsaved heq => ?_
    cases heq
    exact h1.sysClose hp hpc hsaved fd
  | sysRead p fd r =>
    refine hcall hnext fun h1 hp hpc hsaved heq => ?_
    cases heq
    exact h1.fileAccess hp hpc hsaved File.readable "fileread" fd r
  | sysWrite p fd r =>
    refine hcall hnext fun h1 hp hpc hsaved heq => ?_
    cases heq
    exact h1.fileAccess hp hpc hsaved File.writable "filewrite" fd r
  | kfork p child =>
    exact hcall hnext fun h1 hp hpc hsaved heq => h1.sysFork hp hpc hsaved heq
  | kexit p =>
    refine hcall hnext fun h1 hp hpc hsaved heq => ?_
    cases heq
    exact h1.go hp hpc rfl ⟨rfl, rfl⟩ nofun nofun nofun
  | reap p =>
    rw [ite_none_right_eq_some] at hnext
    obtain ⟨hzombie, heq⟩ := hnext
    cases heq
    have hnone : ∀ fd, s.ofile p fd = none := h.fine_of hzombie
    exact h.go (h.facts.procs p (by rw [hzombie]; nofun)) hzombie rfl ⟨rfl, rfl⟩ nofun nofun hnone
  | step p input =>
    rw [ite_none_right_eq_some] at hnext
    exact h.step hnext.1 hnext.2

theorem Initial.inv (h : Initial s) : Inv s := by
  have hpc : ∀ p, (s.proc p).loose = [] ∧ (s.proc p).returnedRef = none ∧
      (s.proc p).object = none := by
    intro p
    obtain heq | ⟨-, r, -, heq⟩ := h.proc p <;> rw [heq] <;> exact ⟨rfl, rfl, rfl⟩
  have hnot : ∀ p c i, s.proc p ≠ .forkDup c i := by
    intro p c i hfork
    obtain heq | ⟨-, r, -, heq⟩ := h.proc p <;> cases heq.symm.trans hfork
  have hshare : ∀ p f, s.share p f = 0 := by
    intro p f
    rw [share, extra_of_object (hpc p).2.2, (hpc p).1, descriptors]
    rw [Finset.sum_eq_zero fun fd _ => by rw [h.ofile, pointsTo_none]]
    rfl
  refine ⟨h.panicked, fun f => ?_, ⟨fun p => ?_, fun p hp => ?_, ?_, ?_, ?_, ?_, ?_⟩,
    ⟨fun pi w => ?_, fun pi ends hends => ?_⟩⟩
  · rw [(h.file f).1, Finset.sum_eq_zero fun p _ => hshare p f]
    rfl
  · obtain heq | ⟨-, r, hr, heq⟩ := h.proc p
    · rw [heq]
      exact h.ofile p
    · rw [heq]
      exact fun hneg => absurd hneg (by omega)
  · obtain heq | ⟨hlt, -⟩ := h.proc p
    · exact absurd heq hp
    · exact hlt
  · intro p fd f hfd
    cases (h.ofile p fd).symm.trans hfd
  · intro p fd f hfd
    cases (h.ofile p fd).symm.trans hfd
  · exact fun f _ => (h.file f).2
  · exact fun p c i hfork => absurd hfork (hnot p c i)
  · exact fun p q c i j hfork => absurd hfork (hnot p c i)
  · rw [openEnd, h.pipe, tokens,
      Finset.sum_eq_zero fun f _ => token_of_not_pipe (by rw [(h.file f).2]; rintro ⟨⟩) pi w,
      Finset.sum_eq_zero fun p _ => objectToken_of_none (hpc p).2.2 pi w]
    rfl
  · cases (h.pipe pi).symm.trans hends

theorem Reachable.inv (h : Reachable s) : Inv s :=
  Machine.Reach.invariant (P := Inv) (fun _ => Initial.inv) (fun _ _ _ hinv _ hnext =>
    hinv.next hnext) h

/-! ## The descriptors of the other processes -/

theorem ofile_setFd_of_ne (s : Ftable) (hq : q ≠ p) (fd : Nat) (x : Option Nat) :
    (s.setFd p fd x).ofile q = s.ofile q := update_of_ne hq _ _

theorem ofile_closing (hdone : ∀ s, (done s).ofile q = s.ofile q)
    (hobject : ∀ ff s, (object ff s).ofile q = s.ofile q) :
    (s.closing f done object).ofile q = s.ofile q := by
  rw [Ftable.closing, Ftable.fileclose]
  by_cases hfree : (s.file f).ref < 1
  · rw [if_pos hfree]
    rfl
  rw [if_neg hfree]
  by_cases hmany : 1 < (s.file f).ref
  · rw [if_pos hmany]
    exact hdone _
  rw [if_neg hmany]
  by_cases htype : (s.file f).type = .FD_NONE
  · rw [if_pos htype]
    exact hdone _
  · rw [if_neg htype]
    exact hobject _ _

theorem ofile_closingObject (hdone : ∀ s, (done s).ofile q = s.ofile q) :
    (s.closingObject ff done).ofile q = s.ofile q := by
  rw [Ftable.closingObject]
  split
  · rfl
  · next s1 hclose =>
    rw [hdone]
    rw [Ftable.closeObject] at hclose
    split at hclose
    · split at hclose
      · cases hclose
      · cases hclose
        rfl
    · cases hclose
      rfl

theorem ofile_filealloc (h : s.filealloc = some (f, s')) : s'.ofile = s.ofile := by
  rw [(filealloc_some h).2.2]
  rfl

theorem ofile_pipeFds (s : Ftable) (hq : q ≠ p) (rf wf pi : Nat) :
    (s.pipeFds p rf wf pi).ofile q = s.ofile q := by
  rw [Ftable.pipeFds]
  split
  · rfl
  · split
    · exact (ofile_setFd_of_ne _ hq _ _).trans (ofile_setFd_of_ne _ hq _ _)
    · exact (ofile_setFd_of_ne _ hq _ _).trans (ofile_setFd_of_ne _ hq _ _)

theorem Inv.ofile_forkRound (h : Inv s) (hpc : s.proc p = .forkDup c i)
    (hembryo : s.proc q ≠ .embryo) : (s.forkRound p c i).ofile q = s.ofile q := by
  have hqc : q ≠ c := by
    rintro rfl
    exact hembryo (h.facts.child p q i hpc).1
  rw [Ftable.forkRound]
  split
  · rfl
  · split
    · rfl
    · next hdup =>
      rw [Ftable.filedup] at hdup
      split at hdup
      · cases hdup
      · cases hdup
        exact ofile_setFd_of_ne _ hqc _ _

theorem ofile_exitRound (s : Ftable) (hq : q ≠ p) (i : Nat) :
    (s.exitRound p i).ofile q = s.ofile q := by
  rw [Ftable.exitRound]
  split
  · rfl
  · exact ofile_closing (fun _ => ofile_setFd_of_ne _ hq _ _) fun _ _ => rfl

/-- A step of `p` leaves the tables of the others alone, but for a child that it is making. -/
theorem Inv.ofile_step (h : Inv s) (hstep : s.step p input = some s') (hq : q ≠ p)
    (hembryo : s.proc q ≠ .embryo) : s'.ofile q = s.ofile q := by
  rw [Ftable.step] at hstep
  split at hstep
  all_goals try cases hstep
  · split at hstep
    · cases hstep
      rfl
    · next halloc =>
      cases hstep
      exact congrFun (ofile_filealloc halloc) q
  · split at hstep
    · cases hstep
      rfl
    · cases hstep
      exact ofile_setFd_of_ne _ hq _ _
  · split at hstep
    · cases hstep
      rfl
    · next halloc =>
      cases hstep
      exact congrFun (ofile_filealloc halloc) q
  · split at hstep
    · cases hstep
      rfl
    · next halloc =>
      cases hstep
      exact congrFun (ofile_filealloc halloc) q
  · split at hstep
    · cases hstep
      rfl
    · rw [ite_none_right_eq_some] at hstep
      cases hstep.2
      rfl
  · exact s.ofile_pipeFds hq _ _ _
  · split at hstep
    · cases hstep
      rfl
    · cases hstep
      exact (ofile_setFd_of_ne _ hq _ _).trans (ofile_setFd_of_ne _ hq _ _)
  · rfl
  · exact ofile_closing (fun _ => rfl) fun _ _ => rfl
  · exact ofile_closingObject fun _ => rfl
  · exact ofile_closingObject fun _ => rfl
  · next hpc =>
    split at hstep
    · cases hstep
      exact h.ofile_forkRound hpc hembryo
    · cases hstep
      rfl
  · split at hstep
    · cases hstep
      exact s.ofile_exitRound hq _
    · cases hstep
      rfl
  · exact ofile_closingObject fun _ => ofile_setFd_of_ne _ hq _ _

theorem ofile_sysDup (s : Ftable) (hq : q ≠ p) (fd : Int) :
    (s.sysDup p fd).ofile q = s.ofile q := by
  rw [Ftable.sysDup]
  split
  · rfl
  · split
    · rfl
    · split
      · rfl
      · next hdup =>
        rw [Ftable.filedup] at hdup
        split at hdup
        · cases hdup
        · cases hdup
          exact ofile_setFd_of_ne _ hq _ _

theorem ofile_sysClose (s : Ftable) (hq : q ≠ p) (fd : Int) :
    (s.sysClose p fd).ofile q = s.ofile q := by
  rw [Ftable.sysClose]
  split
  · rfl
  · refine (ofile_closing ?_ ?_).trans (ofile_setFd_of_ne _ hq _ _)
    · exact fun _ => rfl
    · exact fun _ _ => rfl

theorem ofile_sysOpen (s : Ftable) (p : Nat) (found : Option Opened) :
    (s.sysOpen p found).ofile = s.ofile := by
  cases found with
  | none => rfl
  | some o =>
    rw [Ftable.sysOpen]
    split
    · rfl
    · split <;> rfl

theorem ofile_fileAccess (s : Ftable) (p : Nat) (allowed : File → Bool) (message : String)
    (fd r : Int) : (s.fileAccess p allowed message fd r).ofile = s.ofile := by
  rw [Ftable.fileAccess]
  split
  · rfl
  · split
    · rfl
    · split <;> rfl

theorem Inv.ofile_next (h : Inv s) (hnext : s.next e = some s') (hq : q ≠ e.actor)
    (hembryo : s.proc q ≠ .embryo) : s'.ofile q = s.ofile q := by
  have hcall : ∀ {p : Nat} {body : Ftable → Option Ftable}, s.call p body = some s' →
      (∀ {s1}, body s1 = some s' → s'.ofile q = s1.ofile q) → s'.ofile q = s.ofile q := by
    intro p body hstep hbody
    obtain ⟨-, r, -, heq⟩ := call_some hstep
    rw [hbody heq]
  unfold Ftable.next at hnext
  rw [if_neg (by rw [h.safe]; nofun)] at hnext
  cases e with
  | sysOpen p found =>
    refine hcall hnext fun heq => ?_
    cases heq
    exact congrFun (ofile_sysOpen _ p found) q
  | sysDup p fd =>
    refine hcall hnext fun heq => ?_
    cases heq
    exact ofile_sysDup _ hq fd
  | sysClose p fd =>
    refine hcall hnext fun heq => ?_
    cases heq
    exact ofile_sysClose _ hq fd
  | sysRead p fd r =>
    refine hcall hnext fun heq => ?_
    cases heq
    exact congrFun (ofile_fileAccess _ p File.readable "fileread" fd r) q
  | sysWrite p fd r =>
    refine hcall hnext fun heq => ?_
    cases heq
    exact congrFun (ofile_fileAccess _ p File.writable "filewrite" fd r) q
  | sysPipe p | kexit p =>
    refine hcall hnext fun heq => ?_
    cases heq
    rfl
  | kfork p child =>
    refine hcall hnext fun heq => ?_
    cases child with
    | none =>
      cases heq
      rfl
    | some c =>
      rw [Ftable.sysFork, ite_none_right_eq_some] at heq
      cases heq.2
      rfl
  | reap p =>
    rw [ite_none_right_eq_some] at hnext
    cases hnext.2
    rfl
  | step p input =>
    rw [ite_none_right_eq_some] at hnext
    exact h.ofile_step hnext.2 hq hembryo

/-! ## The file table in every interleaving -/

theorem extra_of_between (h : pc.Between) (f : Nat) : pc.extra f = 0 := by
  cases pc with
  | unused | zombie | returned r => rfl
  | _ => cases h

theorem Piped.pipe_none_iff (h : Piped s) (pi : Nat) :
    s.pipe pi = none ↔ s.tokens pi false = 0 ∧ s.tokens pi true = 0 := by
  rw [h.tokens, h.tokens, openEnd, openEnd]
  cases hpipe : s.pipe pi with
  | none => exact ⟨fun _ => ⟨rfl, rfl⟩, fun _ => rfl⟩
  | some ends =>
    refine ⟨by rintro ⟨⟩, fun hclosed => ?_⟩
    obtain hopen | hopen := h.used pi ends hpipe <;> simp [hopen] at hclosed

/-- In every interleaving the reference count of an entry is the number of descriptors that
lead to it, plus what the calls in progress hold; between calls it is the number of
descriptors.  So nothing panics, a descriptor leads to a file in use, a failing call leaves
the descriptors as they were and closes only a pipe that it made, and a page is a pipe as
long as an entry, or a call that is closing one, keeps an end open. -/
theorem file_table_counts (h : Reachable s) :
    s.panicked = none ∧
      (∀ f, ((s.file f).ref : Int) =
        ∑ p ∈ Finset.range NPROC, (descriptors (s.ofile p) f + (s.proc p).extra f)) ∧
      ((∀ p, p < NPROC → (s.proc p).Between) →
        ∀ f, ((s.file f).ref : Int) = ∑ p ∈ Finset.range NPROC, descriptors (s.ofile p) f) ∧
      (∀ f, (s.file f).ref = 0 → (s.file f).type = .FD_NONE) ∧
      (∀ p r fd f, s.proc p = .returned r → s.ofile p fd = some f →
        (s.file f).type ≠ .FD_NONE ∧ 1 ≤ (s.file f).ref) ∧
      (∀ p, s.proc p = .returned (-1) → s.ofile p = s.saved p) ∧
      (∀ e s', s.next e = some s' → ∀ q, q ≠ e.actor → s.proc q ≠ .embryo →
        s'.ofile q = s.ofile q) ∧
      (∀ p made ff fs, s.proc p = .undoObject made ff fs →
        ff.type = .FD_PIPE ∧ made = some ff.pipe) ∧
      ∀ pi, s.pipe pi = none ↔ s.tokens pi false = 0 ∧ s.tokens pi true = 0 := by
  have hinv : Inv s := Reachable.inv h
  refine ⟨hinv.safe, hinv.counted, fun hbetween f => ?_, hinv.facts.free, ?_, ?_, ?_, ?_,
    hinv.piped.pipe_none_iff⟩
  · rw [hinv.counted f]
    refine Finset.sum_congr rfl fun p hp => ?_
    rw [share, extra_of_between (hbetween p (Finset.mem_range.mp hp)), Int.add_zero]
  · intro p r fd f hpc hfd
    have htype := hinv.facts.typed p fd f hfd (by rw [hpc]; rintro _ _ ⟨⟩)
    exact ⟨htype, Nat.one_le_iff_ne_zero.mpr fun hzero => htype (hinv.facts.free f hzero)⟩
  · intro p hpc
    exact hinv.fine_of hpc rfl
  · intro e s' hnext q
    exact hinv.ofile_next hnext
  · intro p made ff fs hpc
    exact (hinv.fine_of hpc).2

/-- An empty table and one process. -/
def emptyTable : Ftable where
  file := fun _ => ⟨.FD_NONE, 0, false, false, 0, 0, 0, 0⟩
  ofile := fun _ _ => none
  pipe := fun _ => none
  proc := fun p => if p = 0 then .returned 0 else .unused
  panicked := none
  saved := fun _ _ => none

theorem emptyTable_initial : Initial emptyTable where
  file := fun _ => ⟨rfl, rfl⟩
  ofile := fun _ _ => rfl
  pipe := fun _ => rfl
  proc := by
    intro p
    by_cases hp : p = 0
    · exact .inr ⟨by rw [hp]; decide, 0, Int.le_refl 0, if_pos hp⟩
    · exact .inl (if_neg hp)
  panicked := rfl

/-- Process 0 opens a file, forks process 1, and then fails to make a pipe because `copyout`
fails. -/
def openForkPipe : List FileEvent :=
  .sysOpen 0 (some ⟨7, none, O_RDWR⟩) :: List.replicate 2 (.step 0 none) ++
    .kfork 0 (some 1) :: List.replicate 17 (.step 0 none) ++
    .sysPipe 0 :: List.replicate 4 (.step 0 (some 3)) ++ List.replicate 6 (.step 0 none)

theorem file_table_counts_forked :
    ∃ s, Reachable s ∧ (∀ p, p < NPROC → (s.proc p).Between) ∧ s.proc 0 = .returned (-1) ∧
      (s.file 0).ref = 2 ∧ ∑ p ∈ Finset.range NPROC, descriptors (s.ofile p) 0 = 2 ∧
      s.ofile 0 = s.saved 0 ∧ s.tokens 3 false = 0 := by
  have hrun : (Machine.run Ftable.next emptyTable openForkPipe).map
      (fun s => ((List.range NPROC).all fun p => decide (s.proc p).Between, s.proc 0,
        (s.file 0).ref, s.pipe 3)) = some (true, .returned (-1), 2, none) := by
    decide +kernel
  obtain ⟨s, hs, hview⟩ := Option.map_eq_some_iff.mp hrun
  have hreach : Reachable s :=
    (Machine.Reach.start emptyTable_initial).of_run (fun _ _ _ => trivial) hs
  simp only [Prod.mk.injEq] at hview
  obtain ⟨hall, hpc, href, hpipe⟩ := hview
  have hbetween : ∀ p, p < NPROC → (s.proc p).Between := fun p hp =>
    of_decide_eq_true (List.all_eq_true.mp hall p (List.mem_range.mpr hp))
  obtain ⟨-, -, hcount, -, -, hsaved, -, -, htokens⟩ := file_table_counts hreach
  refine ⟨s, hreach, hbetween, hpc, href, ?_, hsaved 0 hpc, ((htokens 3).mp hpipe).1⟩
  rw [← hcount hbetween 0, href]
  rfl

end Ftable

end EAFITos
