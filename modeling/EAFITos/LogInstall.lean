/-
`install_trans` and `recover_from_log` keep the invariant, and with them every step of
the log's machine does.
-/
import EAFITos.LogCommit

namespace EAFITos

open Function List Option

namespace LogState

variable {s s' : LogState} {p q i j b : Nat} {pc : LogPc} {e : LogEvent}

variable {tail l d : Nat}

section

variable (h : Inv s)
include h

theorem Inv.logBlock_durable (hhead : s.head = s.lh) (htail : tail < s.lh.length) :
    s.disk (s.logBlock tail) = s.durable (s.entry tail) := by
  have hentry : s.entry tail = s.lh.get ⟨tail, htail⟩ := getD_eq_getElem _ _ htail
  have hidx : s.lh.idxOf (s.entry tail) = tail := by
    rw [hentry]
    exact List.Nodup.idxOf_getElem h.entries.nodup tail htail
  have hreplay := h.durable _ (h.home_entry htail)
  rw [replay, hhead, if_pos (entry_mem htail), hidx] at hreplay
  exact hreplay

/-- Blocks without an entry have their durable contents at home. -/
theorem Inv.home_durable (hhead : s.head = s.lh) (hhome : s.Home b) (hnot : b ∉ s.lh) :
    s.disk b = s.durable b := by
  have hreplay := h.durable b hhome
  rwa [replay, hhead, if_neg hnot] at hreplay

theorem Inv.settled (hhead : s.head = s.lh) (hinstalled : s.Installed s.lh.length)
    (hhome : s.Home b) : s.disk b = s.durable b := by
  by_cases hmem : b ∈ s.lh
  · have hidx := idxOf_lt_length_of_mem hmem
    have hentry : s.entry (s.lh.idxOf b) = b := by
      rw [entry, getD_eq_getElem _ _ hidx, getElem_idxOf]
    rw [← hentry]
    exact hinstalled _ hidx
  · exact h.home_durable hhead hhome hmem

/-- The contents of the buffer of a log block that was read. -/
theorem Inv.log_data (hin : (s.pc p).inCommit) (hnone : s.changes (s.pc p) = none)
    (hhead : s.head = s.lh) (htail : tail < s.lh.length)
    (hl : (s.cache.buf l).names ROOTDEV (s.logBlock tail)) (hfilled : (s.cache.hold p l).filled) :
    (s.cache.buf l).data = s.durable (s.entry tail) := by
  obtain ⟨-, hlt, hdev⟩ := h.coherent.inUse
    (Stage.ne_free_of_holding (Stage.holding_of_filled hfilled))
  have harea : ¬ s.Home (s.cache.buf l).blockno := by
    rw [hl.2]
    exact not_home_logBlock (Nat.lt_of_lt_of_le htail h.entries.room)
  rw [← h.logBlock_durable hhead htail, ← hl.2]
  exact h.coherent.area l hlt hdev (h.coherent.ok.valid p l hfilled) harea
    fun q => h.clean_commit hin hnone q l

/-- The copy of `install_trans`: recovery takes over what the log has, and a commit finds
in the log what the cache has already. -/
theorem Inv.install_copy (hpc : s.pc p = .install tail (.copy l d)) (hphase : Phase s')
    (hl : s.cache.hold p l = .ready) (hd : s.cache.hold p d = .ready) (hs : s' = if s.booting then
      { (s.setCache (s.cache.edit p d (s.cache.buf l).data)).goto p (.install tail (.write l d)) with
        store := Function.update s.store (s.cache.buf d).blockno (s.cache.buf l).data }
      else (s.setCache (s.cache.edit p d (s.cache.buf l).data)).goto p (.install tail (.write l d))) :
    Inv s' := by
  have hin : (s.pc p).inCommit := by rw [hpc]; rfl
  have hnone : s.changes (s.pc p) = none := by rw [hpc]; rfl
  have hfacts := h.logFacts p
  have hbuf := h.bufFacts p
  rw [hpc] at hfacts hbuf
  obtain ⟨hhead, hle, hinside, hstore, hinstalled, hpinned⟩ := hfacts
  have htail := hinside rfl
  obtain ⟨-, hlnames⟩ := hbuf.has l _ mem_cons_self
  obtain ⟨-, hdnames⟩ := hbuf.has d _ (mem_cons_of_mem _ mem_cons_self)
  have hfilled : (s.cache.hold p d).filled := by rw [hd]; rfl
  have hdata := h.log_data hin hnone hhead htail hlnames (by rw [hl]; rfl)
  have hco : (s.cache.edit p d (s.cache.buf l).data).Coherent s.Home s.disk
      (Function.update s.store (s.cache.buf d).blockno (s.cache.buf l).data) s.pinned :=
    h.coherent.edit hfilled
  cases hboot : s.booting with
  | true =>
    rw [hboot, if_pos rfl] at hs
    subst hs
    refine h.edited hphase rfl hin hnone hfilled rfl hco rfl hdata ?_ ?_
    · exact ⟨hhead, hle, hinside, fun hfalse => absurd (hboot.symm.trans hfalse) (by decide),
        hinstalled, hpinned⟩
    · rw [hpc]
      exact fun j x => Iff.rfl
  | false =>
    rw [hboot, if_neg (by decide)] at hs
    subst hs
    have hsame : Function.update s.store (s.cache.buf d).blockno (s.cache.buf l).data = s.store := by
      rw [hdnames.2, hdata, ← hstore hboot _ (h.home_entry htail), update_eq_self]
    rw [hsame] at hco
    refine h.edited hphase rfl hin hnone hfilled rfl hco rfl hdata ?_ ?_
    · exact ⟨hhead, hle, hinside, hstore, hinstalled, hpinned⟩
    · rw [hpc]
      exact fun j x => Iff.rfl

/-- The write of a home block. -/
theorem Inv.install_write (hpc : s.pc p = .install tail (.write l d)) (hphase : Phase s')
    (hdirty : s.cache.hold p d = .dirty)
    (hs : s' = (s.bwrite p d).goto p (.install tail (.unpin l d))) : Inv s' := by
  have hin : (s.pc p).inCommit := by rw [hpc]; rfl
  have hfacts := h.logFacts p
  have hbuf := h.bufFacts p
  rw [hpc] at hfacts hbuf
  obtain ⟨hhead, hle, hinside, hstore, hinstalled, hpinned⟩ := hfacts
  have htail := hinside rfl
  obtain ⟨-, hdnames⟩ := hbuf.has d _ (mem_cons_of_mem _ mem_cons_self)
  obtain ⟨-, hdata⟩ := hbuf.changed d _ rfl
  have hblock : (s.cache.buf d).blockno = s.entry tail := hdnames.2
  have hhome := h.home_entry htail
  have hx : (s.cache.buf d).blockno ≠ s.start := by
    intro heq
    rw [← hblock, heq] at hhome
    exact not_home_start hhome
  have hheads : s'.head = s.head := head_write (by rw [hs]; rfl) (by rw [hs]; rfl) hx
  refine h.wrote hphase (by rw [hs]) hin hdirty rfl rfl ?_ ?_ ?_ ?_
  · rw [hheads, hs]
    exact h.heads
  · intro x hhomex
    have hsame : s'.replay x = s.replay x := by
      refine replay_write (by rw [hs]; rfl) (by rw [hs]; rfl) hx (fun hmem heq => ?_) (fun hnot heq => ?_)
      · rw [hhead] at hmem
        have hidx := Nat.lt_of_lt_of_le (idxOf_lt_length_of_mem hmem) h.entries.room
        rw [hblock] at heq
        refine not_home_logBlock (s := s) hidx ?_
        rw [hhead] at heq
        rw [heq]
        exact hhome
      · rw [heq, hblock, hhead] at hnot
        exact hnot (entry_mem htail)
    rw [hs] at hhomex
    rw [hsame]
    exact h.durable x hhomex
  · rw [LogFacts, hheads, hs]
    refine ⟨hhead, hle, hinside, hstore, fun k hk => ?_, hpinned⟩
    change Function.update s.disk (s.cache.buf d).blockno (s.cache.buf d).data (s.entry k) =
      s.durable (s.entry k)
    by_cases hsame : s.entry k = s.entry tail
    · rw [hsame, hblock, update_self]
      exact hdata
    · rw [update_of_ne (by rw [hblock]; exact hsame)]
      refine hinstalled k ?_
      rcases Nat.lt_succ_iff_lt_or_eq.mp hk with hk | rfl
      · exact hk
      · exact absurd rfl hsame
  · rw [hs, hpc]
    exact fun j x => Iff.rfl

/-- `bunpin` of a block that has been written home. -/
theorem Inv.install_unpin (hpc : s.pc p = .install tail (.unpin l d)) (hphase : Phase s')
    (hs : s' = if s.booting then s.goto p (.install tail (.release l d)) else
      { (s.goto p (.install tail (.release l d))).setCache (s.cache.bunpin d) with
        pinned := s.pinned.erase (s.cache.buf d).blockno }) : Inv s' := by
  have hin : (s.pc p).inCommit := by rw [hpc]; rfl
  have hnone : s.changes (s.pc p) = none := by rw [hpc]; rfl
  have hfacts := h.logFacts p
  have hbuf := h.bufFacts p
  rw [hpc] at hfacts hbuf
  obtain ⟨hhead, hle, hinside, hstore, hinstalled, hpinned⟩ := hfacts
  have htail := hinside rfl
  obtain ⟨hdactive, hdnames⟩ := hbuf.has d _ (mem_cons_of_mem _ mem_cons_self)
  cases hboot : s.booting with
  | true =>
    rw [hboot, if_pos rfl] at hs hpinned
    subst hs
    refine h.moved hphase rfl hin hnone rfl rfl h.entries ?_ ?_
    · refine ⟨hhead, hle, hinside, hstore, hinstalled, ?_⟩
      change s.pinned = if s.booting then _ else _
      rw [hboot, if_pos rfl, hpinned]
    · rw [hpc]
      exact fun j x => Iff.rfl
  | false =>
    rw [hboot, if_neg (by decide)] at hs hpinned
    subst hs
    have hblock : (s.cache.buf d).blockno = s.entry tail := hdnames.2
    have hdrop : s.pinned = s.entry tail :: s.lh.drop (tail + 1) := by
      rw [hpinned, entry, getD_eq_getElem _ _ htail]
      exact drop_eq_getElem_cons htail
    have herase : s.pinned.erase (s.cache.buf d).blockno = s.lh.drop (tail + 1) := by
      rw [hblock, hdrop, erase_cons_head]
    have hnodup : s.pinned.Nodup := hpinned ▸ h.entries.nodup.sublist (drop_sublist _ _)
    have hhold : s.cache.hold p d ≠ .free := by
      intro hfree
      rw [hfree] at hdactive
      cases hdactive
    have hdisk : s.disk (s.cache.buf d).blockno = s.store (s.cache.buf d).blockno := by
      rw [hblock, hstore hboot _ (h.home_entry htail)]
      exact hinstalled tail (Nat.lt_succ_self tail)
    have hco := h.coherent.bunpin hnodup hhold (by rw [hdrop, hblock]; exact mem_cons_self)
      fun _ => hdisk
    have halike : ∀ q j, Bcache.Alike s.cache (s.cache.bunpin d) q j :=
      fun q j => Bcache.alike_repin q j
    refine Inv.of_committer (p := p) hphase ?_ hco
      (h.mine_others hin fun q j _ => halike q j) ?_ h.entries h.heads h.durable ?_ ?_
    · change ((s.goto p (.install tail (.release l d))).pc p).inCommit
      rw [goto_pc_self]
      rfl
    · exact fun q j hdirty => absurd ((halike q j).2.1.mp hdirty) (h.clean_commit hin hnone q j)
    · change LogFacts _ ((s.goto p (.install tail (.release l d))).pc p)
      rw [goto_pc_self]
      refine ⟨hhead, hle, hinside, hstore, hinstalled, ?_⟩
      change s.pinned.erase _ = if s.booting then _ else _
      rw [hboot, herase]
      rfl
    · change BufFacts _ p ((s.goto p (.install tail (.release l d))).pc p)
      rw [goto_pc_self]
      refine ⟨fun j x hmem => ?_, fun _ j hactive => ?_, by rintro _ _ ⟨⟩⟩
      · exact hbuf.has_alike hmem (halike p j)
      · exact hbuf.only rfl j ((halike p j).1.symm.trans hactive)

theorem Inv.installStep {pos : CopyPc} (hp : p < NPROC) (hphase : Phase s')
    (hpc : s.pc p = .install tail pos) (hs : s.installStep p tail pos = some s') : Inv s' := by
  have hin : (s.pc p).inCommit := by rw [hpc]; rfl
  have hfacts := h.logFacts p
  have hbuf := h.bufFacts p
  rw [hpc] at hfacts hbuf
  obtain ⟨hhead, hle, hinside, hstore, hinstalled, hpinned⟩ := hfacts
  cases pos <;> rw [LogState.installStep] at hs
  case getLog =>
    have hnone : s.changes (s.pc p) = none := by rw [hpc]; rfl
    split at hs
    case isTrue hlt =>
      obtain ⟨-, hs⟩ := ite_none_right_eq_some.mp hs
      refine h.got hp hphase hin hnone hs fun l => ⟨rfl, rfl, ?_, ?_⟩
      · exact ⟨hhead, hle, fun _ => hlt, hstore, hinstalled, hpinned⟩
      · intro j x
        rw [hpc]
        simp [buffers]
    case isFalse hge =>
      have hend : tail = s.lh.length := by omega
      obtain rfl := some.inj hs
      refine h.moved hphase rfl hin hnone rfl rfl ?_ ?_ fun j x => by rw [hpc]; rfl
      · exact ⟨nodup_nil, Nat.zero_le _, fun b hb => (by cases hb), fun b hb => (by cases hb)⟩
      · refine ⟨rfl, ?_, fun b hhome => ?_, by rintro ⟨⟩⟩
        · change s.pinned = []
          rw [hpinned, hend]
          split
          · rfl
          · exact drop_length
        · exact h.settled hhead (hend ▸ hinstalled) hhome
  case getHome l =>
    have hnone : s.changes (s.pc p) = none := by rw [hpc]; rfl
    obtain ⟨-, hs⟩ := ite_none_right_eq_some.mp hs
    refine h.got hp hphase hin hnone hs fun d => ⟨rfl, rfl, ?_, ?_⟩
    · exact ⟨hhead, hle, hinside, hstore, hinstalled, hpinned⟩
    · intro j x
      rw [hpc]
      simp only [buffers, mem_cons, not_mem_nil, or_false, Prod.mk.injEq]
      exact or_comm
  case copy l d =>
    obtain ⟨hready, hs⟩ := ite_none_right_eq_some.mp hs
    exact h.install_copy hpc hphase hready.1 hready.2 (some.inj hs).symm
  case write l d =>
    obtain ⟨hdirty, hs⟩ := ite_none_right_eq_some.mp hs
    exact h.install_write hpc hphase hdirty (some.inj hs).symm
  case unpin l d => exact h.install_unpin hpc hphase (some.inj hs).symm
  case release l d =>
    have hnone : s.changes (s.pc p) = none := by rw [hpc]; rfl
    have htail := hinside rfl
    obtain ⟨-, hl⟩ := hbuf.has l _ mem_cons_self
    obtain ⟨-, hd⟩ := hbuf.has d _ (mem_cons_of_mem _ mem_cons_self)
    refine h.released hphase hin hnone hs rfl rfl ?_ ?_
    · exact ⟨hhead, hle, hinside, hstore, hinstalled, hpinned⟩
    · rw [hpc]
      refine mem_release (fun _ => mem_cons) (fun z hz => ?_)
      rw [mem_singleton.mp hz]
      exact (h.ne_of_names htail hl hd).symm
  case finish l d =>
    have hnone : s.changes (s.pc p) = none := by rw [hpc]; rfl
    have htail := hinside rfl
    obtain ⟨-, hs⟩ := ite_none_right_eq_some.mp hs
    refine h.released hphase hin hnone hs rfl rfl ?_ ?_
    · exact ⟨hhead, htail, fun hin => (by cases hin), hstore, hinstalled, hpinned⟩
    · rw [hpc]
      exact mem_release (fun _ => mem_cons) (by rintro _ ⟨⟩)

theorem Inv.readHeadStep {pos : HeadPc} (hp : p < NPROC) (hphase : Phase s')
    (hpc : s.pc p = .readHead pos) (hs : s.readHeadStep p pos = some s') : Inv s' := by
  have hin : (s.pc p).inCommit := by rw [hpc]; rfl
  have hnone : s.changes (s.pc p) = none := by rw [hpc]; cases pos <;> rfl
  have hfacts := h.logFacts p
  have hbuf := h.bufFacts p
  rw [hpc] at hfacts hbuf
  obtain ⟨hboot, hpinned, hread⟩ := hfacts
  cases pos <;> rw [LogState.readHeadStep] at hs
  case get =>
    obtain ⟨-, hs⟩ := ite_none_right_eq_some.mp hs
    refine h.got hp hphase hin hnone hs fun i => ⟨rfl, rfl, ?_, ?_⟩
    · exact ⟨hboot, hpinned, by rintro ⟨⟩⟩
    · intro j x
      rw [hpc]
      simp [buffers]
  case edit i =>
    obtain ⟨hready, hs⟩ := ite_none_right_eq_some.mp hs
    obtain ⟨-, hnames⟩ := hbuf.has i _ mem_cons_self
    have hfilled : (s.cache.hold p i).filled := by rw [hready]; rfl
    obtain ⟨-, hi, hdev⟩ := h.coherent.inUse
      (Stage.ne_free_of_holding (Stage.holding_of_filled hfilled))
    have hdata : (s.cache.buf i).data = s.disk s.start := by
      rw [← hnames.2]
      refine h.coherent.area i hi hdev (h.coherent.ok.valid p i hfilled) ?_
        fun q => h.clean_commit hin hnone q i
      rw [hnames.2]
      exact not_home_start
    have hlh : EAFITos.readHead (s.cache.buf i).data = s.head := by rw [hdata]; rfl
    obtain rfl := some.inj hs
    refine h.moved hphase rfl hin hnone rfl rfl (by rw [hlh]; exact h.heads) ?_ ?_
    · exact ⟨hboot, hpinned, fun _ => hlh⟩
    · rw [hpc]
      exact fun j x => Iff.rfl
  case write i => cases hs
  case release i =>
    refine h.released hphase hin hnone hs rfl rfl ?_ ?_
    · refine ⟨(hread rfl).symm, Nat.zero_le _, fun hinside => (by cases hinside),
        fun hfalse => absurd (hboot.symm.trans hfalse) (by decide),
        fun k hk => absurd hk (Nat.not_lt_zero k), ?_⟩
      rw [hboot]
      exact hpinned
    · rw [hpc]
      exact mem_release (fun _ => mem_cons) (by rintro _ ⟨⟩)

/-- The end of a commit or of recovery. -/
theorem Inv.finish (hpc : s.pc p = .endCommit) (hidle : s.cache.Idle p) (hphase : Phase s')
    (hs : s' = { s with committing := false, booting := false }.goto p .idle) : Inv s' := by
  have hin : (s.pc p).inCommit := by rw [hpc]; rfl
  have hnone : s.changes (s.pc p) = none := by rw [hpc]; rfl
  have hfacts := h.logFacts p
  rw [hpc] at hfacts
  obtain ⟨hlh, hpinned, hhead⟩ := hfacts
  subst hs
  have hclean := h.clean_commit hin hnone
  refine Inv.of_clients hphase (hphase.alone rfl rfl) h.coherent ?_
    (fun q j hdirty => absurd hdirty (hclean q j)) h.entries h.heads h.durable ?_
    ⟨hhead, hpinned.trans hlh.symm⟩
  · intro q j hactive
    have hqp : q ≠ p := by
      rintro rfl
      have hhold : s.cache.hold q j ≠ .free := by
        intro hfree
        change (s.cache.hold q j).active at hactive
        rw [hfree] at hactive
        cases hactive
      exact hhold (hidle j (mem_range.mpr (h.coherent.ok.inUse q j hhold).2.1))
    exact h.mine q j (h.phase.others hin hqp) hactive
  · intro q started logged hq
    by_cases hqp : q = p
    · rw [hqp, goto_pc_self] at hq
      cases hq
    · rw [goto_pc_of_ne hqp] at hq
      exact h.started q started logged hq

theorem Inv.commitStep (hp : p < NPROC) (hphase : Phase s') (hs : s.commitStep p = some s') :
    Inv s' := by
  rw [LogState.commitStep] at hs
  split at hs
  case h_1 tail pos hpc => exact h.writeLogStep hp hphase hpc hs
  case h_2 clear pos hpc => exact h.writeHeadStep hp hphase hpc hs
  case h_3 tail pos hpc => exact h.installStep hp hphase hpc hs
  case h_4 pos hpc => exact h.readHeadStep hp hphase hpc hs
  case h_5 hpc =>
    obtain ⟨hidle, hs⟩ := ite_none_right_eq_some.mp hs
    exact h.finish hpc hidle hphase (some.inj hs).symm
  case h_6 => cases hs

/-- A crash leaves the disk, and with it what recovery needs. -/
theorem Inv.crash : Inv (boot s.start s.disk s.durable s.commits) := by
  have hpc : (boot s.start s.disk s.durable s.commits).pc 0 = .readHead .get := by simp [boot]
  have hco : Bcache.binit.Coherent s.Home s.disk s.disk [] :=
    ⟨Bcache.binit_ok, fun _ hdev => absurd rfl hdev, fun _ _ => rfl, fun b hb => (by cases hb),
      fun _ _ hdev => (by cases hdev), fun _ _ hne => absurd rfl hne, fun _ _ hdev => (by cases hdev)⟩
  refine Inv.of_committer (p := 0) (boot_phase _ _ _ _) (by rw [hpc]; rfl) hco ?_ ?_ ?_ h.heads
    h.durable (by rw [hpc]; exact ⟨rfl, rfl, by rintro ⟨⟩⟩) ?_
  · exact fun q j _ hactive => by cases hactive
  · rintro _ _ ⟨⟩
  · exact ⟨nodup_nil, Nat.zero_le _, fun b hb => (by cases hb), fun b hb => (by cases hb)⟩
  · rw [hpc]
    exact ⟨fun i b hmem => (by cases hmem), fun _ i hactive => (by cases hactive),
      fun i P hP => (by cases hP)⟩

/-- The step lemma. -/
theorem Inv.next (hs : s.next e = some s') : Inv s' := by
  have hphase := h.phase.next hs
  cases e with
  | crash =>
    cases hs
    exact h.crash
  | act p action =>
    obtain ⟨hp, -, hact⟩ := next_act hs
    cases action <;> rw [act] at hact
    case acquiresleep i => exact h.acquiresleep hact
    case bread i => exact h.bread hact
    case brelse i => exact h.brelse hact
    case beginOp => exact h.beginOp hphase hact
    case get b => exact h.clientGet hp hact
    case modify i data => exact h.modify hphase hact
    case logWrite i => exact h.logWrite hphase hact
    case release i => exact h.clientRelease hact
    case endOp => exact h.endOp hphase hact
    case commit => exact h.commitStep hp hphase hact

end

theorem Initial.inv (h : Initial s) : Inv s := by
  have hhead : s.head = [] := h.head
  have hfree : ∀ q j, s.cache.hold q j = .free := h.unused
  have hnil : Entries s.start [] :=
    ⟨nodup_nil, Nat.zero_le _, fun b hb => (by cases hb), fun b hb => (by cases hb)⟩
  have hco : s.cache.Coherent s.Home s.disk s.store s.pinned := by
    rw [h.store, h.pinned]
    refine ⟨h.cache, h.rootdev, fun i _ => ?_, fun b hb => (by cases hb), ?_, ?_, ?_⟩
    · rw [h.unpinned i]
      simp
    · exact fun i hi _ hvalid _ => h.clean i hi hvalid
    · exact fun b _ hne => absurd rfl hne
    · exact fun i hi _ hvalid _ _ => h.clean i hi hvalid
  refine Inv.of_clients h.phase (fun q => by rw [h.pc q]; rfl) hco ?_ ?_ (h.lh ▸ hnil)
    (hhead ▸ hnil) ?_ ?_ ⟨hhead, by rw [h.pinned, h.lh]⟩
  · intro q j hactive
    rw [hfree q j] at hactive
    cases hactive
  · intro q j hdirty
    rw [hfree q j] at hdirty
    cases hdirty
  · intro b _
    rw [replay, hhead, if_neg not_mem_nil, h.durable]
  · intro q started logged hq
    rw [h.pc q] at hq
    cases hq

theorem Reachable.inv {ok : LogState → LogEvent → Prop} (h : Reachable ok s) : Inv s :=
  Machine.Reach.invariant (fun _ => Initial.inv) (fun _ _ _ hs _ hnext => hs.next hnext) h

end LogState

end EAFITos
