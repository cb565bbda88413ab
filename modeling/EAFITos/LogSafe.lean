/-
Every step of the log's machine keeps the invariant: operations, readers, commit,
recovery and crashes.
-/
import EAFITos.LogInv

namespace EAFITos

open List

namespace LogState

variable {s s' : LogState} {p q i j b : Nat} {pc : LogPc} {cache : Bcache}

theorem changes_client (h : pc.inCommit = false) : s.changes pc = none := by
  cases pc <;> first | rfl | cases h

theorem BufFacts.client (h : pc.inCommit = false) : s.BufFacts p pc := by
  have hbuffers : s.buffers pc = [] := by cases pc <;> first | rfl | cases h
  refine ⟨fun i b hmem => ?_, fun hin => ?_, fun i P hchanges => ?_⟩
  · rw [hbuffers] at hmem
    cases hmem
  · rw [h] at hin
    cases hin
  · rw [changes_client h] at hchanges
    cases hchanges

theorem LogFacts.client (h : pc.inCommit = false) : s.LogFacts pc := by
  cases pc <;> trivial

theorem not_home_start : ¬ s.Home s.start := by
  rintro (h | h) <;> omega

theorem not_home_logBlock (h : i < LOGBLOCKS) : ¬ s.Home (s.logBlock i) := by
  rintro (h' | h') <;> simp only [logBlock] at h' <;> omega

theorem entry_mem (h : i < s.lh.length) : s.entry i ∈ s.lh := by
  rw [entry, getD_eq_getElem _ _ h]
  exact getElem_mem h

theorem Inv.home_entry (h : Inv s) (hi : i < s.lh.length) : s.Home (s.entry i) :=
  h.entries.home _ (entry_mem hi)

/-- While a process commits, only the buffer it is about to write is changed. -/
theorem Inv.dirty_commit (h : Inv s) (hin : (s.pc p).inCommit) (hdirty : s.cache.hold q j = .dirty) :
    q = p ∧ ∃ P, s.changes (s.pc p) = some (j, P) := by
  rcases h.dirty q j hdirty with hop | ⟨P, hchanges⟩
  · have hzero := h.phase.inOp_eq_zero (h.phase.quiet (h.phase.committer p hin).1) q
    rw [hzero] at hop
    cases hop
  · have hq : q = p := by
      by_contra hne
      rw [changes_client (h.phase.others hin hne)] at hchanges
      cases hchanges
    exact ⟨hq, P, hq ▸ hchanges⟩

theorem Inv.fail (h : Inv s) (message : String) : Inv (s.fail message) :=
  ⟨h.phase.of_eq (SameLog.refl s) rfl, h.coherent, h.mine, h.dirty, h.entries, h.heads, h.durable,
    h.started, h.rest, h.logFacts, fun p =>
    ⟨(h.bufFacts p).has, (h.bufFacts p).only, (h.bufFacts p).changed⟩⟩

/-- Facts about buffers hold on as long as the buffers are left alone. -/
theorem BufFacts.alike (h : s.BufFacts p pc) (halike : ∀ j, Bcache.Alike s.cache cache p j) :
    (s.setCache cache).BufFacts p pc := by
  refine ⟨fun i b hmem => ?_, fun hin i hactive => ?_, fun i P hchanges => ?_⟩
  · obtain ⟨hactive, hnames⟩ := h.has i b hmem
    obtain ⟨hactive', -, hnames', -⟩ := halike i
    refine ⟨hactive'.trans hactive, ?_⟩
    obtain ⟨hdev, hblock⟩ := hnames' hactive
    exact ⟨hdev.trans hnames.1, hblock.trans hnames.2⟩
  · exact h.only hin i ((halike i).1.symm.trans hactive)
  · obtain ⟨hdirty, hdata⟩ := h.changed i P hchanges
    obtain ⟨-, hdirty', -, hdata'⟩ := halike i
    exact ⟨hdirty'.mpr hdirty, (hdata' hdirty).symm ▸ hdata⟩

section

variable (h : Inv s)
include h

/-- A step in the cache that leaves the buffers of committing processes alone. -/
theorem Inv.setCache (hco : cache.Coherent s.Home s.disk s.store s.pinned)
    (hstep : ∀ q j, Bcache.Alike s.cache cache q j ∨ ((s.pc q).inCommit = false ∧
      cache.hold q j ≠ .dirty ∧
      ((cache.hold q j).active → s.Home (cache.buf j).blockno ∧ (cache.buf j).blockno < 2 ^ 32))) :
    Inv (s.setCache cache) := by
  refine ⟨h.phase.of_eq (SameLog.refl s) rfl, hco, ?_, ?_, h.entries, h.heads, h.durable, h.started,
    h.rest, h.logFacts, ?_⟩
  · intro q j hclient hactive
    rcases hstep q j with ⟨hactive', -, hnames, -⟩ | ⟨-, -, hnew⟩
    · have hold := hactive'.symm.trans hactive
      change s.Home (cache.buf j).blockno ∧ (cache.buf j).blockno < 2 ^ 32
      rw [(hnames hold).2]
      exact h.mine q j hclient hold
    · exact hnew hactive
  · intro q j hdirty
    rcases hstep q j with ⟨-, hdirty', -, -⟩ | ⟨-, hclean, -⟩
    · exact h.dirty q j (hdirty'.mp hdirty)
    · exact absurd hdirty hclean
  · intro q
    by_cases hclient : (s.pc q).inCommit = false
    · exact BufFacts.client hclient
    · exact (h.bufFacts q).alike fun j => (hstep q j).resolve_right fun hor => hclient hor.1

theorem Inv.acquiresleep (hs : (s.cache.acquiresleep p i).map s.setCache = some s') : Inv s' := by
  rw [Option.map_eq_some_iff] at hs
  obtain ⟨cache, hcache, rfl⟩ := hs
  exact h.setCache (h.coherent.acquiresleep hcache) fun q j => .inl (Bcache.alike_acquiresleep hcache q j)

theorem Inv.bread (hs : (s.cache.bread s.disk p i).map s.setCache = some s') : Inv s' := by
  rw [Option.map_eq_some_iff] at hs
  obtain ⟨cache, hcache, rfl⟩ := hs
  exact h.setCache (h.coherent.bread hcache)
    fun q j => .inl (Bcache.alike_bread h.coherent.ok hcache q j)

theorem Inv.brelse (hs : (s.cache.brelse p i).map s.setCache = some s') : Inv s' := by
  rw [Option.map_eq_some_iff] at hs
  obtain ⟨cache, hcache, rfl⟩ := hs
  exact h.setCache (h.coherent.brelse hcache) fun q j => .inl (Bcache.alike_brelse hcache q j)

theorem Inv.clientGet (hp : p < NPROC) (hs : s.clientGet p b = some s') : Inv s' := by
  obtain ⟨hclient, -, hhome, hsmall, hget⟩ := clientGet_spec hs
  obtain ⟨hnot, ⟨i, cache, hgot, rfl⟩ | ⟨-, rfl⟩⟩ := bget_spec hget
  · rw [show (s.setCache cache).goto p (s.pc p) = s.setCache cache from goto_pc_eq (s := s.setCache cache)]
    refine h.setCache (h.coherent.bget hp hnot hgot) fun q j => ?_
    by_cases hself : q = p ∧ j = i
    · obtain ⟨rfl, rfl⟩ := hself
      obtain ⟨hhold, hnames⟩ := Bcache.hold_got hgot
      exact .inr ⟨hclient, by rw [hhold]; decide, fun _ => hnames.2.symm ▸ ⟨hhome, hsmall⟩⟩
    · exact .inl (Bcache.alike_got h.coherent.ok hnot hgot (not_and_or.mp hself))
  · exact h.fail _

theorem Inv.clientRelease (hs : s.clientRelease p i = some s') : Inv s' := by
  obtain ⟨hclient, hrelease⟩ := clientRelease_spec hs
  obtain ⟨cache, hcache, rfl⟩ := release_spec hrelease
  rw [show (s.setCache cache).goto p (s.pc p) = s.setCache cache from goto_pc_eq (s := s.setCache cache)]
  refine h.setCache (h.coherent.releasesleep hcache) fun q j => ?_
  by_cases hself : q = p ∧ j = i
  · obtain ⟨rfl, rfl⟩ := hself
    obtain ⟨-, hhold⟩ := Bcache.hold_releasesleep hcache
    exact .inr ⟨hclient, by rw [hhold]; decide, fun hactive => by rw [hhold] at hactive; cases hactive⟩
  · exact .inl (Bcache.alike_releasesleep hcache (not_and_or.mp hself))

end

/-! ## Operations -/

/-- The invariant when nobody commits. -/
theorem Inv.of_clients (hphase : Phase s) (hclient : ∀ q, (s.pc q).inCommit = false)
    (hco : s.cache.Coherent s.Home s.disk s.store s.pinned)
    (hmine : ∀ q j, (s.cache.hold q j).active →
      s.Home (s.cache.buf j).blockno ∧ (s.cache.buf j).blockno < 2 ^ 32)
    (hdirty : ∀ q j, s.cache.hold q j = .dirty → (s.pc q).inOp = 1)
    (hentries : Entries s.start s.lh) (hheads : Entries s.start s.head)
    (hdurable : ∀ b, s.Home b → s.replay b = s.durable b)
    (hstarted : ∀ q started logged, s.pc q = .op started logged → started = s.commits)
    (hrest : s.head = [] ∧ s.pinned = s.lh) : Inv s :=
  ⟨hphase, hco, fun q j _ => hmine q j, fun q j hq => .inl (hdirty q j hq), hentries, hheads, hdurable,
    hstarted, fun _ _ => hrest, fun q => LogFacts.client (hclient q), fun q => BufFacts.client (hclient q)⟩

theorem Inv.of_committer (hphase : Phase s) (hin : (s.pc p).inCommit)
    (hco : s.cache.Coherent s.Home s.disk s.store s.pinned)
    (hmine : ∀ q j, q ≠ p → (s.cache.hold q j).active →
      s.Home (s.cache.buf j).blockno ∧ (s.cache.buf j).blockno < 2 ^ 32)
    (hdirty : ∀ q j, s.cache.hold q j = .dirty → q = p ∧ ∃ P, s.changes (s.pc p) = some (j, P))
    (hentries : Entries s.start s.lh) (hheads : Entries s.start s.head)
    (hdurable : ∀ b, s.Home b → s.replay b = s.durable b)
    (hlog : s.LogFacts (s.pc p)) (hbuf : s.BufFacts p (s.pc p)) : Inv s := by
  have hor := (hphase.committer p hin).1
  have hclient : ∀ q, q ≠ p → (s.pc q).inCommit = false := fun q => hphase.others hin
  refine ⟨hphase, hco, ?_, ?_, hentries, hheads, hdurable, ?_, ?_, ?_, ?_⟩
  · intro q j hq hactive
    refine hmine q j ?_ hactive
    rintro rfl
    rw [hq] at hin
    cases hin
  · intro q j hq
    obtain ⟨rfl, P, hchanges⟩ := hdirty q j hq
    exact .inr ⟨P, hchanges⟩
  · intro q started logged hq
    have hzero := hphase.inOp_eq_zero (hphase.quiet hor) q
    rw [hq] at hzero
    cases hzero
  · intro hcommitting hbooting
    rw [hcommitting, hbooting] at hor
    simp at hor
  · intro q
    by_cases hqp : q = p
    · exact hqp ▸ hlog
    · exact LogFacts.client (hclient q hqp)
  · intro q
    by_cases hqp : q = p
    · exact hqp ▸ hbuf
    · exact BufFacts.client (hclient q hqp)

theorem Inv.dirty_client (h : Inv s) (hclient : (s.pc q).inCommit = false)
    (hdirty : s.cache.hold q j = .dirty) : (s.pc q).inOp = 1 := by
  rcases h.dirty q j hdirty with hop | ⟨P, hchanges⟩
  · exact hop
  · rw [changes_client hclient] at hchanges
    cases hchanges

theorem Inv.beginOp (h : Inv s) (hphase : Phase s') (hs : s.beginOp p = some s') : Inv s' := by
  obtain ⟨hidle, hbooting, hcommitting, -, rfl⟩ := beginOp_spec hs
  have halone := h.phase.alone hcommitting hbooting
  refine Inv.of_clients hphase (hphase.alone hcommitting hbooting) h.coherent
    (fun q j => h.mine q j (halone q)) ?_ h.entries h.heads h.durable ?_ (h.rest hcommitting hbooting)
  · intro q j hdirty
    have hop := h.dirty_client (halone q) hdirty
    have hqp : q ≠ p := by
      rintro rfl
      rw [hidle] at hop
      cases hop
    rwa [goto_pc_of_ne hqp]
  · intro q started logged hq
    by_cases hqp : q = p
    · rw [hqp, goto_pc_self] at hq
      cases hq
      rfl
    · rw [goto_pc_of_ne hqp] at hq
      exact h.started q started logged hq

theorem Inv.modify {data : Block} (h : Inv s) (hphase : Phase s') (hs : s.modify p i data = some s') :
    Inv s' := by
  obtain ⟨hop, hfilled, rfl⟩ := modify_spec hs
  obtain ⟨hcommitting, hbooting⟩ := h.phase.running hop
  have halone := h.phase.alone hcommitting hbooting
  have hself : ∀ q j, ¬ (q ≠ p ∨ j ≠ i) → q = p ∧ j = i := fun q j hq => by simpa using hq
  refine Inv.of_clients hphase halone (h.coherent.edit hfilled) ?_ ?_ h.entries h.heads h.durable
    h.started (h.rest hcommitting hbooting)
  · intro q j hactive
    change s.Home ((s.cache.edit p i data).buf j).blockno ∧ ((s.cache.edit p i data).buf j).blockno < _
    by_cases hother : q ≠ p ∨ j ≠ i
    · obtain ⟨hactive', -, hnames, -⟩ := Bcache.alike_edit h.coherent.ok hfilled hother
      have hold := hactive'.symm.trans hactive
      rw [(hnames hold).2]
      exact h.mine q j (halone q) hold
    · obtain ⟨rfl, rfl⟩ := hself q j hother
      rw [Bcache.edit, Bcache.setHold_buf, Bcache.setBuf_self]
      exact h.mine q j (halone q) (Stage.active_of_filled hfilled)
  · intro q j hdirty
    by_cases hother : q ≠ p ∨ j ≠ i
    · obtain ⟨-, hdirty', -, -⟩ := Bcache.alike_edit h.coherent.ok hfilled hother
      exact h.dirty_client (halone q) (hdirty'.mp hdirty)
    · obtain ⟨rfl, rfl⟩ := hself q j hother
      exact hop

/-- A `log_write` that returns: the buffer counts as unchanged, its block is pinned, and
nothing else moves but the operation. -/
theorem Inv.logging {started : Nat} {logged lh pinned : List Nat} (h : Inv s)
    (hpc : s.pc p = .op started logged) (hfilled : (s.cache.hold p i).filled)
    (hcache : ∀ j, (cache.buf j).blockno = (s.cache.buf j).blockno)
    (hhold : ∀ q j, q ≠ p ∨ j ≠ i → cache.hold q j = s.cache.hold q j) (hself : cache.hold p i = .ready)
    (hco : cache.Coherent s.Home s.disk s.store pinned) (hentries : Entries s.start lh)
    (hpinned : pinned = lh)
    (hphase : Phase { (s.goto p (logging started logged b)).setCache cache with lh, pinned }) :
    Inv { (s.goto p (logging started logged b)).setCache cache with lh, pinned } := by
  have hop : (s.pc p).inOp = 1 := by rw [hpc]; rfl
  obtain ⟨hcommitting, hbooting⟩ := h.phase.running hop
  have halone := h.phase.alone hcommitting hbooting
  refine Inv.of_clients hphase (hphase.alone hcommitting hbooting) hco ?_ ?_ hentries h.heads
    h.durable ?_ ⟨(h.rest hcommitting hbooting).1, hpinned⟩
  · intro q j hactive
    change s.Home (cache.buf j).blockno ∧ (cache.buf j).blockno < _
    rw [hcache j]
    by_cases hother : q ≠ p ∨ j ≠ i
    · exact h.mine q j (halone q) (hhold q j hother ▸ hactive)
    · obtain ⟨rfl, rfl⟩ : q = p ∧ j = i := by simpa using hother
      exact h.mine q j (halone q) (Stage.active_of_filled hfilled)
  · intro q j hdirty
    change cache.hold q j = .dirty at hdirty
    change ((s.goto p (LogState.logging started logged b)).pc q).inOp = 1
    by_cases hother : q ≠ p ∨ j ≠ i
    · rw [hhold q j hother] at hdirty
      by_cases hqp : q = p
      · rw [hqp, goto_pc_self]
        rfl
      · rw [goto_pc_of_ne hqp]
        exact h.dirty_client (halone q) hdirty
    · obtain ⟨rfl, rfl⟩ : q = p ∧ j = i := by simpa using hother
      rw [hself] at hdirty
      cases hdirty
  · intro q started' logged' hq
    change (s.goto p (LogState.logging started logged b)).pc q = _ at hq
    by_cases hqp : q = p
    · rw [hqp, goto_pc_self, LogState.logging, LogPc.op.injEq] at hq
      exact hq.1 ▸ h.started p started logged hpc
    · rw [goto_pc_of_ne hqp] at hq
      exact h.started q started' logged' hq

theorem setHold_hold_of_ne {c : Bcache} {stage : Stage} (h : q ≠ p ∨ j ≠ i) :
    (c.setHold p i stage).hold q j = c.hold q j := by
  by_cases hji : j = i
  · rw [Bcache.setHold_of_ne_proc (h.resolve_right fun hne => hne hji)]
  · rw [Bcache.setHold_of_ne hji]

theorem bpin_blockno (c : Bcache) (i j : Nat) : ((c.bpin i).buf j).blockno = (c.buf j).blockno := by
  change ((c.setBuf i _).buf j).blockno = _
  by_cases hji : j = i
  · rw [hji, Bcache.setBuf_self]
  · rw [Bcache.setBuf_of_ne hji]

theorem Entries.append {lh : List Nat} (h : Entries s.start lh) (hroom : lh.length < LOGBLOCKS)
    (hnew : b ∉ lh) (hhome : s.Home b) (hsmall : b < 2 ^ 32) : Entries s.start (lh ++ [b]) := by
  refine ⟨?_, ?_, ?_, ?_⟩
  · exact nodup_append.mpr ⟨h.nodup, nodup_singleton b,
      fun x hx y hy heq => hnew (by rw [mem_singleton] at hy; exact hy ▸ heq ▸ hx)⟩
  · rw [length_append, length_singleton]
    omega
  · intro x hx
    rcases mem_append.mp hx with hx | hx
    · exact h.home x hx
    · exact mem_singleton.mp hx ▸ hhome
  · intro x hx
    rcases mem_append.mp hx with hx | hx
    · exact h.small x hx
    · exact mem_singleton.mp hx ▸ hsmall

theorem Inv.logWrite (h : Inv s) (hphase : Phase s') (hs : s.logWrite p i = some s') : Inv s' := by
  obtain ⟨started, logged, hpc, hfilled, hwrite⟩ := logWrite_spec hs
  have hop : (s.pc p).inOp = 1 := by rw [hpc]; rfl
  obtain ⟨hcommitting, hbooting⟩ := h.phase.running hop
  obtain ⟨hhome, hsmall⟩ := h.mine p i (h.phase.alone hcommitting hbooting p)
    (Stage.active_of_filled hfilled)
  obtain ⟨-, hpinned⟩ := h.rest hcommitting hbooting
  cases hwrite with
  | tooBig _ => exact h.fail _
  | outside _ => exact h.fail _
  | absorbed hroom hmem =>
    have hblock : ∀ j, ((s.cache.setHold p i .ready).buf j).blockno = (s.cache.buf j).blockno :=
      fun _ => rfl
    exact h.logging hpc hfilled hblock (fun _ _ => setHold_hold_of_ne) Bcache.setHold_self
      (h.coherent.logged hfilled hhome (hpinned ▸ hmem)) h.entries hpinned hphase
  | added hroom hnew =>
    have hco := h.coherent.bpin hfilled (hpinned ▸ hnew)
    have hblock := bpin_blockno s.cache i
    refine h.logging hpc hfilled hblock (fun _ _ => setHold_hold_of_ne) Bcache.setHold_self
      (hco.logged hfilled (by rw [hblock]; exact hhome) (by rw [hblock]; simp))
      (h.entries.append hroom hnew hhome hsmall) (by rw [hpinned]) hphase

/-- The last `end_op` starts the commit. -/
theorem Inv.endOp (h : Inv s) (hphase : Phase s') (hs : s.endOp p = some s') : Inv s' := by
  obtain ⟨⟨started, logged, hpc⟩, hidle, hend⟩ := endOp_spec hs
  have hop : (s.pc p).inOp = 1 := by rw [hpc]; rfl
  obtain ⟨hcommitting, hbooting⟩ := h.phase.running hop
  have halone := h.phase.alone hcommitting hbooting
  obtain ⟨hhead, hpinned⟩ := h.rest hcommitting hbooting
  have hfree : ∀ j, s.cache.hold p j = .free := by
    intro j
    by_contra hhold
    exact hhold (hidle j (mem_range.mpr (h.coherent.ok.inUse p j hhold).2.1))
  have hdirty : ∀ q j, s.cache.hold q j = .dirty → q ≠ p ∧ (s.pc q).inOp = 1 := by
    intro q j hq
    refine ⟨?_, h.dirty_client (halone q) hq⟩
    rintro rfl
    rw [hfree j] at hq
    cases hq
  cases hend with
  | failed htrue =>
    rw [hcommitting] at htrue
    cases htrue
  | commit _ hlast =>
    have hnone := hphase.inOp_eq_zero hlast
    refine Inv.of_committer (p := p) hphase ?_ h.coherent (fun q j _ => h.mine q j (halone q)) ?_
      h.entries h.heads h.durable ?_ ?_
    · rw [goto_pc_self]
      split <;> rfl
    · intro q j hq
      obtain ⟨hqp, hop'⟩ := hdirty q j hq
      have hzero := hnone q
      rw [goto_pc_of_ne hqp] at hzero
      change (s.pc q).inOp = 0 at hzero
      rw [hzero] at hop'
      cases hop'
    · rw [goto_pc_self]
      split
      · exact ⟨hbooting, hhead, hpinned, Nat.zero_le _, fun hinside => (by cases hinside),
          fun k hk => absurd hk (Nat.not_lt_zero k)⟩
      · rename_i hnil
        have hempty := length_eq_zero_iff.mp (Nat.eq_zero_of_not_pos hnil)
        exact ⟨hempty, hpinned.trans hempty, hhead⟩
    · rw [goto_pc_self]
      have hnot : ∀ i, ¬ (s.cache.hold p i).active := fun i => by rw [hfree i]; decide
      split
      all_goals exact ⟨fun i b hmem => (by cases hmem), fun _ i hactive => absurd hactive (hnot i),
        fun i P hchanges => (by cases hchanges)⟩
  | leave _ _ =>
    refine Inv.of_clients hphase (hphase.alone hcommitting hbooting) h.coherent
      (fun q j => h.mine q j (halone q)) ?_ h.entries h.heads h.durable ?_ ⟨hhead, hpinned⟩
    · intro q j hq
      rw [goto_pc_of_ne (hdirty q j hq).1]
      exact (hdirty q j hq).2
    · intro q started' logged' hq
      by_cases hqp : q = p
      · rw [hqp, goto_pc_self] at hq
        cases hq
      · rw [goto_pc_of_ne hqp] at hq
        exact h.started q started' logged' hq

end LogState

end EAFITos
