/-
The steps of `commit` and of recovery keep the invariant.
-/
import EAFITos.LogSafe

namespace EAFITos

open Function List Option

namespace LogState

variable {s s' : LogState} {p q i j b : Nat} {pc : LogPc} {cache : Bcache}

variable {data : Block} {lh : List Nat} {tail x : Nat}

/-! ## Kinds of steps -/

/-- A committing process that is not about to write leaves no changed buffer. -/
theorem Inv.clean_commit (h : Inv s) (hin : (s.pc p).inCommit) (hnone : s.changes (s.pc p) = none)
    (q j : Nat) : s.cache.hold q j ≠ .dirty := by
  intro hdirty
  obtain ⟨-, P, hchanges⟩ := h.dirty_commit hin hdirty
  rw [hnone] at hchanges
  cases hchanges

theorem Inv.mine_others (h : Inv s) (hin : (s.pc p).inCommit)
    (halike : ∀ q j, q ≠ p → Bcache.Alike s.cache cache q j) (q j : Nat) (hq : q ≠ p)
    (hactive : (cache.hold q j).active) :
    s.Home (cache.buf j).blockno ∧ (cache.buf j).blockno < 2 ^ 32 := by
  obtain ⟨hactive', -, hnames, -⟩ := halike q j hq
  have hold := hactive'.symm.trans hactive
  rw [(hnames hold).2]
  exact h.mine q j (h.phase.others hin hq) hold

/-- Buffers that are left alone stay those of the process. -/
theorem BufFacts.has_alike (h : s.BufFacts p pc) (hmem : (j, b) ∈ s.buffers pc)
    (halike : Bcache.Alike s.cache cache p j) :
    (cache.hold p j).active ∧ (cache.buf j).names ROOTDEV b := by
  obtain ⟨hactive, hnames⟩ := h.has j b hmem
  obtain ⟨hactive', -, hsame, -⟩ := halike
  obtain ⟨hdev, hblock⟩ := hsame hactive
  exact ⟨hactive'.trans hactive, hdev.trans hnames.1, hblock.trans hnames.2⟩

/-- `bget` in `commit`. -/
theorem Inv.got {next : Nat → LogPc} (h : Inv s) (hp : p < NPROC) (hphase : Phase s')
    (hin : (s.pc p).inCommit) (hnone : s.changes (s.pc p) = none) (hget : s.bget p b next = some s')
    (hnext : ∀ i, (next i).inCommit ∧ s.changes (next i) = none ∧ s.LogFacts (next i) ∧
      ∀ j x, (j, x) ∈ s.buffers (next i) ↔ (j = i ∧ x = b) ∨ (j, x) ∈ s.buffers (s.pc p)) :
    Inv s' := by
  obtain ⟨hnot, ⟨i, cache, hgot, rfl⟩ | ⟨-, rfl⟩⟩ := bget_spec hget
  · obtain ⟨hin', hnone', hfacts, hbuffers⟩ := hnext i
    obtain ⟨hhold, hnames⟩ := Bcache.hold_got hgot
    have hclean := h.clean_commit hin hnone
    have halike : ∀ q j, q ≠ p ∨ j ≠ i → Bcache.Alike s.cache cache q j :=
      fun q j => Bcache.alike_got h.coherent.ok hnot hgot
    have hpc : ((s.setCache cache).goto p (next i)).pc p = next i := goto_pc_self
    refine Inv.of_committer (p := p) hphase (by rw [hpc]; exact hin') (h.coherent.bget hp hnot hgot)
      (h.mine_others hin fun q j hq => halike q j (.inl hq)) ?_ h.entries h.heads h.durable
      (by rw [hpc]; exact hfacts) ?_
    · intro q j hdirty
      by_cases hother : q ≠ p ∨ j ≠ i
      · exact absurd ((halike q j hother).2.1.mp hdirty) (hclean q j)
      · obtain ⟨rfl, rfl⟩ : q = p ∧ j = i := by simpa using hother
        change cache.hold q j = .dirty at hdirty
        rw [hhold] at hdirty
        cases hdirty
    · rw [hpc]
      refine ⟨fun j x hmem => ?_, fun _ j hactive => ?_, fun j P hchanges => ?_⟩
      · change (cache.hold p j).active ∧ (cache.buf j).names ROOTDEV x
        rcases (hbuffers j x).mp hmem with ⟨rfl, rfl⟩ | hold
        · rw [hhold]
          exact ⟨rfl, hnames⟩
        · have hji : j ≠ i := by
            rintro rfl
            have hactive := ((h.bufFacts p).has j x hold).1
            rw [(h.coherent.ok.bget_free hnot hgot).2] at hactive
            cases hactive
          exact (h.bufFacts p).has_alike hold (halike p j (.inr hji))
      · by_cases hji : j = i
        · exact ⟨b, (hbuffers j b).mpr (.inl ⟨hji, rfl⟩)⟩
        · obtain ⟨x, hx⟩ := (h.bufFacts p).only hin j ((halike p j (.inr hji)).1.symm.trans hactive)
          exact ⟨x, (hbuffers j x).mpr (.inr hx)⟩
      · change s.changes (next i) = _ at hchanges
        rw [hnone'] at hchanges
        cases hchanges
  · exact h.fail _

section

variable (h : Inv s) (hphase : Phase s')
include h hphase

/-- The first half of `brelse` in `commit`. -/
theorem Inv.released (hin : (s.pc p).inCommit) (hnone : s.changes (s.pc p) = none)
    (hrelease : s.release p i pc = some s') (hin' : pc.inCommit) (hnone' : s.changes pc = none)
    (hfacts : s.LogFacts pc)
    (hbuffers : ∀ j x, (j, x) ∈ s.buffers pc ↔ j ≠ i ∧ (j, x) ∈ s.buffers (s.pc p)) : Inv s' := by
  obtain ⟨cache, hcache, rfl⟩ := release_spec hrelease
  have hclean := h.clean_commit hin hnone
  have halike : ∀ q j, q ≠ p ∨ j ≠ i → Bcache.Alike s.cache cache q j :=
    fun q j => Bcache.alike_releasesleep hcache
  have hpc : ((s.setCache cache).goto p pc).pc p = pc := goto_pc_self
  refine Inv.of_committer (p := p) hphase (by rw [hpc]; exact hin') (h.coherent.releasesleep hcache)
    (h.mine_others hin fun q j hq => halike q j (.inl hq)) ?_ h.entries h.heads h.durable
    (by rw [hpc]; exact hfacts) ?_
  · intro q j hdirty
    by_cases hother : q ≠ p ∨ j ≠ i
    · exact absurd ((halike q j hother).2.1.mp hdirty) (hclean q j)
    · obtain ⟨rfl, rfl⟩ : q = p ∧ j = i := by simpa using hother
      change cache.hold q j = .dirty at hdirty
      rw [(Bcache.hold_releasesleep hcache).2] at hdirty
      cases hdirty
  · rw [hpc]
    refine ⟨fun j x hmem => ?_, fun _ j hactive => ?_, fun j P hchanges => ?_⟩
    · obtain ⟨hji, hold⟩ := (hbuffers j x).mp hmem
      exact (h.bufFacts p).has_alike hold (halike p j (.inr hji))
    · have hji : j ≠ i := by
        rintro rfl
        change (cache.hold p j).active at hactive
        rw [(Bcache.hold_releasesleep hcache).2] at hactive
        cases hactive
      obtain ⟨x, hx⟩ := (h.bufFacts p).only hin j ((halike p j (.inr hji)).1.symm.trans hactive)
      exact ⟨x, (hbuffers j x).mpr ⟨hji, hx⟩⟩
    · change s.changes pc = _ at hchanges
      rw [hnone'] at hchanges
      cases hchanges

/-- A change of a buffer in `commit`, which is then written. -/
theorem Inv.edited {store : Nat → Block} {P : Block → Prop}
    (hs : s' = { (s.setCache (s.cache.edit p i data)).goto p pc with store := store })
    (hin : (s.pc p).inCommit) (hnone : s.changes (s.pc p) = none)
    (hfilled : (s.cache.hold p i).filled) (hin' : pc.inCommit)
    (hco : (s.cache.edit p i data).Coherent s.Home s.disk store s.pinned)
    (hchanges : s'.changes pc = some (i, P)) (hP : P data) (hfacts : s'.LogFacts pc)
    (hbuffers : ∀ j x, (j, x) ∈ s'.buffers pc ↔ (j, x) ∈ s.buffers (s.pc p)) : Inv s' := by
  have hclean := h.clean_commit hin hnone
  have halike : ∀ q j, q ≠ p ∨ j ≠ i → Bcache.Alike s.cache (s.cache.edit p i data) q j :=
    fun q j => Bcache.alike_edit h.coherent.ok hfilled
  have hpc : s'.pc p = pc := by
    subst hs
    exact goto_pc_self
  have hcache : s'.cache = s.cache.edit p i data := by rw [hs]; rfl
  have hself : s'.cache.hold p i = .dirty ∧
      (s'.cache.buf i).names (s.cache.buf i).dev (s.cache.buf i).blockno ∧ (s'.cache.buf i).data = data := by
    rw [hcache, Bcache.edit, Bcache.setHold_self, Bcache.setHold_buf, Bcache.setBuf_self]
    exact ⟨rfl, ⟨rfl, rfl⟩, rfl⟩
  refine Inv.of_committer (p := p) hphase (by rw [hpc]; exact hin') (by rw [hs]; exact hco) ?_ ?_
    (by rw [hs]; exact h.entries) (by rw [hs]; exact h.heads) (by rw [hs]; exact h.durable)
    (by rw [hpc]; exact hfacts) ?_
  · rw [hs]
    exact h.mine_others hin fun q j hq => halike q j (.inl hq)
  · intro q j hdirty
    by_cases hother : q ≠ p ∨ j ≠ i
    · rw [hcache] at hdirty
      exact absurd ((halike q j hother).2.1.mp hdirty) (hclean q j)
    · obtain ⟨rfl, rfl⟩ : q = p ∧ j = i := by simpa using hother
      exact ⟨rfl, P, hpc.symm ▸ hchanges⟩
  · rw [hpc]
    refine ⟨fun j x hmem => ?_, fun _ j hactive => ?_, fun j Q hQ => ?_⟩
    · have hold := (hbuffers j x).mp hmem
      by_cases hji : j = i
      · subst hji
        obtain ⟨-, hnames⟩ := (h.bufFacts p).has j x hold
        rw [hself.1]
        exact ⟨rfl, hself.2.1.1.trans hnames.1, hself.2.1.2.trans hnames.2⟩
      · rw [hcache]
        exact (h.bufFacts p).has_alike hold (halike p j (.inr hji))
    · have hold : (s.cache.hold p j).active := by
        by_cases hji : j = i
        · exact hji ▸ Stage.active_of_filled hfilled
        · rw [hcache] at hactive
          exact (halike p j (.inr hji)).1.symm.trans hactive
      obtain ⟨x, hx⟩ := (h.bufFacts p).only hin j hold
      exact ⟨x, (hbuffers j x).mpr hx⟩
    · rw [hchanges] at hQ
      cases hQ
      exact ⟨hself.1, hself.2.2.symm ▸ hP⟩

/-- `bwrite` in `commit`. -/
theorem Inv.wrote {durable : Nat → Block} {commits : Nat}
    (hs : s' = { (s.bwrite p i).goto p pc with durable := durable, commits := commits })
    (hin : (s.pc p).inCommit) (hdirty : s.cache.hold p i = .dirty) (hin' : pc.inCommit)
    (hnone' : s'.changes pc = none) (hheads : Entries s'.start s'.head)
    (hdurable : ∀ b, s'.Home b → s'.replay b = durable b) (hfacts : s'.LogFacts pc)
    (hbuffers : ∀ j x, (j, x) ∈ s'.buffers pc ↔ (j, x) ∈ s.buffers (s.pc p)) : Inv s' := by
  obtain ⟨-, P, hP⟩ := h.dirty_commit hin hdirty
  have halike : ∀ q j, q ≠ p ∨ j ≠ i → Bcache.Alike s.cache (s.cache.setHold p i .ready) q j :=
    fun q j => Bcache.alike_setHold
  have hpc : s'.pc p = pc := by
    subst hs
    exact goto_pc_self
  have hcache : s'.cache = s.cache.setHold p i .ready := by rw [hs]; rfl
  refine Inv.of_committer (p := p) hphase (by rw [hpc]; exact hin')
    (by rw [hs]; exact h.coherent.write hdirty) ?_ ?_ (by rw [hs]; exact h.entries) hheads
    (by rw [hs] at hdurable ⊢; exact hdurable) (by rw [hpc]; exact hfacts) ?_
  · rw [hs]
    exact h.mine_others hin fun q j hq => halike q j (.inl hq)
  · intro q j hq
    rw [hcache] at hq
    by_cases hother : q ≠ p ∨ j ≠ i
    · obtain ⟨rfl, Q, hQ⟩ := h.dirty_commit hin ((halike q j hother).2.1.mp hq)
      rw [hP] at hQ
      cases hQ
      simp at hother
    · obtain ⟨rfl, rfl⟩ : q = p ∧ j = i := by simpa using hother
      rw [Bcache.setHold_self] at hq
      cases hq
  · rw [hpc]
    refine ⟨fun j x hmem => ?_, fun _ j hactive => ?_, fun j Q hQ => ?_⟩
    · have hold := (hbuffers j x).mp hmem
      rw [hcache]
      by_cases hji : j = i
      · subst hji
        obtain ⟨-, hnames⟩ := (h.bufFacts p).has j x hold
        rw [Bcache.setHold_self]
        exact ⟨rfl, hnames⟩
      · exact (h.bufFacts p).has_alike hold (halike p j (.inr hji))
    · have hold : (s.cache.hold p j).active := by
        by_cases hji : j = i
        · rw [hji, hdirty]
          rfl
        · rw [hcache] at hactive
          exact (halike p j (.inr hji)).1.symm.trans hactive
      obtain ⟨x, hx⟩ := (h.bufFacts p).only hin j hold
      exact ⟨x, (hbuffers j x).mpr hx⟩
    · rw [hnone'] at hQ
      cases hQ

/-- A step of `commit` that leaves the cache and the disk alone. -/
theorem Inv.moved (hs : s' = { s with lh := lh }.goto p pc) (hin : (s.pc p).inCommit)
    (hnone : s.changes (s.pc p) = none) (hin' : pc.inCommit) (hnone' : s'.changes pc = none)
    (hentries : Entries s.start lh) (hfacts : s'.LogFacts pc)
    (hbuffers : ∀ j x, (j, x) ∈ s'.buffers pc ↔ (j, x) ∈ s.buffers (s.pc p)) : Inv s' := by
  have hclean := h.clean_commit hin hnone
  have hpc : s'.pc p = pc := by
    subst hs
    exact goto_pc_self
  refine Inv.of_committer (p := p) hphase (by rw [hpc]; exact hin') (by rw [hs]; exact h.coherent) ?_ ?_
    (by rw [hs]; exact hentries) (by rw [hs]; exact h.heads) (by rw [hs]; exact h.durable)
    (by rw [hpc]; exact hfacts) ?_
  · rw [hs]
    exact fun q j hq => h.mine q j (h.phase.others hin hq)
  · intro q j hdirty
    rw [hs] at hdirty
    exact absurd hdirty (hclean q j)
  · rw [hpc]
    refine ⟨fun j x hmem => ?_, fun _ j hactive => ?_, fun j Q hQ => ?_⟩
    · have hhas := (h.bufFacts p).has j x ((hbuffers j x).mp hmem)
      rw [hs]
      exact hhas
    · rw [hs] at hactive
      obtain ⟨x, hx⟩ := (h.bufFacts p).only hin j hactive
      exact ⟨x, (hbuffers j x).mpr hx⟩
    · rw [hnone'] at hQ
      cases hQ

end

/-- The buffers left when one is released. -/
theorem mem_release {y : Nat} {old left : List (Nat × Nat)}
    (hold : ∀ z, z ∈ old ↔ z = (i, y) ∨ z ∈ left) (hne : ∀ z ∈ left, z.1 ≠ i) (j x : Nat) :
    (j, x) ∈ left ↔ j ≠ i ∧ (j, x) ∈ old := by
  rw [hold]
  constructor
  · exact fun hmem => ⟨hne _ hmem, .inr hmem⟩
  · rintro ⟨hji, heq | hmem⟩
    · exact absurd (congrArg Prod.fst heq) hji
    · exact hmem

/-! ## The functions -/

theorem Inv.ne_of_names {l d : Nat} (h : Inv s) (htail : tail < s.lh.length)
    (hl : (s.cache.buf l).names ROOTDEV (s.logBlock tail))
    (hd : (s.cache.buf d).names ROOTDEV (s.entry tail)) : l ≠ d := by
  rintro rfl
  have harea : ¬ s.Home (s.logBlock tail) := not_home_logBlock (Nat.lt_of_lt_of_le htail h.entries.room)
  rw [← hl.2, hd.2] at harea
  exact harea (h.home_entry htail)

theorem head_write (hdisk : s'.disk = Function.update s.disk x data) (hstart : s'.start = s.start)
    (hx : x ≠ s.start) : s'.head = s.head := by
  rw [head, head, hstart, hdisk, update_of_ne hx.symm]

/-- A write that recovery would not see. -/
theorem replay_write (hdisk : s'.disk = Function.update s.disk x data)
    (hstart : s'.start = s.start) (hx : x ≠ s.start)
    (hlog : b ∈ s.head → s.logBlock (s.head.idxOf b) ≠ x) (hhome : b ∉ s.head → b ≠ x) :
    s'.replay b = s.replay b := by
  have hblock : ∀ k, s'.logBlock k = s.logBlock k := fun k => by rw [logBlock, logBlock, hstart]
  rw [replay, replay, head_write hdisk hstart hx, hblock, hdisk]
  split
  · rename_i hmem
    rw [update_of_ne (hlog hmem)]
  · rename_i hmem
    rw [update_of_ne (hhome hmem)]

/-- Changing a buffer of the log concerns no home block. -/
theorem Inv.edit_area (h : Inv s) (hfilled : (s.cache.hold p i).filled)
    (harea : ¬ s.Home (s.cache.buf i).blockno) :
    (s.cache.edit p i data).Coherent s.Home s.disk s.store s.pinned := by
  refine (h.coherent.edit hfilled).congr_store fun x hx => ?_
  rw [update_of_ne]
  rintro rfl
  exact harea hx

theorem Inv.writeLogStep {pos : CopyPc} (h : Inv s) (hp : p < NPROC) (hphase : Phase s')
    (hpc : s.pc p = .writeLog tail pos) (hs : s.writeLogStep p tail pos = some s') : Inv s' := by
  have hin : (s.pc p).inCommit := by rw [hpc]; rfl
  have hfacts := h.logFacts p
  have hbuf := h.bufFacts p
  rw [hpc] at hfacts hbuf
  obtain ⟨hboot, hhead, hpinned, hle, hinside, hcopied⟩ := hfacts
  cases pos <;> rw [LogState.writeLogStep] at hs
  case getLog =>
    have hnone : s.changes (s.pc p) = none := by rw [hpc]; rfl
    split at hs
    case isTrue hlt =>
      obtain ⟨-, hs⟩ := ite_none_right_eq_some.mp hs
      refine h.got hp hphase hin hnone hs fun l => ⟨rfl, rfl, ?_, ?_⟩
      · exact ⟨hboot, hhead, hpinned, hle, fun _ => hlt, hcopied⟩
      · intro j x
        rw [hpc]
        simp [buffers]
    case isFalse hge =>
      have hend : tail = s.lh.length := by omega
      refine h.moved hphase (some.inj hs).symm hin hnone rfl ?_ h.entries ?_ ?_
      · rfl
      · rw [← some.inj hs]
        exact ⟨hboot, hpinned, hend ▸ hcopied, hhead⟩
      · rw [← some.inj hs, hpc]
        exact fun j x => Iff.rfl
  case getHome l =>
    have hnone : s.changes (s.pc p) = none := by rw [hpc]; rfl
    obtain ⟨-, hs⟩ := ite_none_right_eq_some.mp hs
    refine h.got hp hphase hin hnone hs fun d => ⟨rfl, rfl, ?_, ?_⟩
    · exact ⟨hboot, hhead, hpinned, hle, hinside, hcopied⟩
    · intro j x
      rw [hpc]
      simp only [buffers, mem_cons, not_mem_nil, or_false, Prod.mk.injEq]
      exact or_comm
  case copy l d =>
    have hnone : s.changes (s.pc p) = none := by rw [hpc]; rfl
    have htail := hinside rfl
    obtain ⟨-, hl⟩ := hbuf.has l _ mem_cons_self
    obtain ⟨-, hd⟩ := hbuf.has d _ (mem_cons_of_mem _ mem_cons_self)
    obtain ⟨hready, hs⟩ := ite_none_right_eq_some.mp hs
    have hfilled : (s.cache.hold p l).filled := by rw [hready.1]; rfl
    have hdfilled : (s.cache.hold p d).filled := by rw [hready.2]; rfl
    have harea : ¬ s.Home (s.cache.buf l).blockno := by
      rw [hl.2]
      exact not_home_logBlock (Nat.lt_of_lt_of_le htail h.entries.room)
    have hdata : (s.cache.buf d).data = s.store (s.entry tail) := by
      obtain ⟨-, hdlt, hddev⟩ := h.coherent.inUse
        (Stage.ne_free_of_holding (Stage.holding_of_filled hdfilled))
      rw [← hd.2]
      exact h.coherent.cached d hdlt hddev (h.coherent.ok.valid p d hdfilled)
        (hd.2.symm ▸ h.home_entry htail)
    obtain rfl := some.inj hs
    refine h.edited hphase rfl hin hnone hfilled rfl (h.edit_area hfilled harea) rfl hdata ?_ ?_
    · exact ⟨hboot, hhead, hpinned, hle, hinside, hcopied⟩
    · rw [hpc]
      exact fun j x => Iff.rfl
  case write l d =>
    have htail := hinside rfl
    obtain ⟨-, hl⟩ := hbuf.has l _ mem_cons_self
    obtain ⟨-, hdata⟩ := hbuf.changed l _ rfl
    obtain ⟨hdirty, rfl⟩ := Machine.of_guard hs
    have harea : ¬ s.Home (s.cache.buf l).blockno := by
      rw [hl.2]
      exact not_home_logBlock (Nat.lt_of_lt_of_le htail h.entries.room)
    have hx : (s.cache.buf l).blockno ≠ s.start := by
      rw [hl.2, logBlock]
      omega
    have hheads : ((s.bwrite p l).goto p (.writeLog tail (.release l d))).head = s.head :=
      head_write rfl rfl hx
    refine h.wrote hphase rfl hin hdirty rfl rfl ?_ ?_ ?_ ?_
    · rw [hheads]
      exact h.heads
    · intro x hhome
      have hsame : ((s.bwrite p l).goto p (.writeLog tail (.release l d))).replay x = s.replay x := by
        refine replay_write rfl rfl hx (fun hmem => ?_) ?_
        · rw [hhead] at hmem
          cases hmem
        · rintro - rfl
          exact harea hhome
      exact hsame.trans (h.durable x hhome)
    · refine ⟨hboot, hheads.trans hhead, hpinned, hle, hinside, fun k hk => ?_⟩
      change Function.update s.disk (s.cache.buf l).blockno (s.cache.buf l).data (s.logBlock k) =
        s.store (s.entry k)
      rcases Nat.lt_succ_iff_lt_or_eq.mp hk with hk | rfl
      · rw [update_of_ne (by rw [hl.2, logBlock, logBlock]; omega)]
        exact hcopied k hk
      · rw [← hl.2, update_self]
        exact hdata
    · rw [hpc]
      exact fun j x => Iff.rfl
  case unpin l d => cases hs
  case release l d =>
    have hnone : s.changes (s.pc p) = none := by rw [hpc]; rfl
    have htail := hinside rfl
    obtain ⟨-, hl⟩ := hbuf.has l _ mem_cons_self
    obtain ⟨-, hd⟩ := hbuf.has d _ (mem_cons_of_mem _ mem_cons_self)
    refine h.released hphase hin hnone hs rfl rfl ?_ ?_
    · exact ⟨hboot, hhead, hpinned, hle, hinside, hcopied⟩
    · rw [hpc]
      refine mem_release (y := s.entry tail) (fun z => ?_) (fun z hz => ?_)
      · simp [buffers, or_comm]
      · rw [mem_singleton.mp hz]
        exact h.ne_of_names htail hl hd
  case finish l d =>
    have hnone : s.changes (s.pc p) = none := by rw [hpc]; rfl
    have htail := hinside rfl
    obtain ⟨-, hs⟩ := ite_none_right_eq_some.mp hs
    refine h.released hphase hin hnone hs rfl rfl ?_ ?_
    · exact ⟨hboot, hhead, hpinned, htail, fun hin => (by cases hin), hcopied⟩
    · rw [hpc]
      exact mem_release (fun _ => mem_cons) (by rintro _ ⟨⟩)

theorem Entries.lt_size (h : Entries s.start lh) : lh.length < 2 ^ 32 :=
  Nat.lt_of_le_of_lt h.room (by decide)

theorem Inv.disk_eq_store (h : Inv s) (hin : (s.pc p).inCommit)
    (hchanges : ∀ j P, s.changes (s.pc p) = some (j, P) → ¬ s.Home (s.cache.buf j).blockno)
    (hhome : s.Home b) (hpin : b ∉ s.pinned) : s.disk b = s.store b := by
  by_contra hne
  rcases h.coherent.behind b hhome hne with hmem | ⟨q, j, hnames, hdirty⟩
  · exact hpin hmem
  · obtain ⟨-, P, hP⟩ := h.dirty_commit hin hdirty
    exact hchanges j P hP (hnames.2.symm ▸ hhome)

theorem Inv.commit_point (h : Inv s) (hpc : s.pc p = .writeHead false (.write i))
    (hphase : Phase s') (hdirty : s.cache.hold p i = .dirty)
    (hs : s' = { (s.bwrite p i).goto p (.writeHead false (.release i)) with
      durable := s.store, commits := s.commits + 1 }) : Inv s' := by
  have hin : (s.pc p).inCommit := by rw [hpc]; rfl
  have hfacts := h.logFacts p
  have hbuf := h.bufFacts p
  rw [hpc] at hfacts hbuf
  obtain ⟨hboot, hpinned, hcopied, hhead⟩ := hfacts
  obtain ⟨-, hnames⟩ := hbuf.has i _ mem_cons_self
  obtain ⟨-, hdata⟩ := hbuf.changed i _ rfl
  have hblock : (s.cache.buf i).blockno = s.start := hnames.2
  have hdisk : s'.disk = Function.update s.disk s.start (s.cache.buf i).data := by
    rw [hs, ← hblock]
    rfl
  have hstart : s'.start = s.start := by rw [hs]; rfl
  have hhead' : s'.head = s.lh := by
    rw [head, hdisk, hstart, update_self]
    exact hdata
  have hcopied' : ∀ k, k < s.lh.length → s'.disk (s.logBlock k) = s.store (s.entry k) := by
    intro k hk
    rw [hdisk, update_of_ne (by rw [logBlock]; omega)]
    exact hcopied k hk
  have hreplay : ∀ b, s'.Home b → s'.replay b = s.store b := by
    intro b hhome
    have hhome' : s.Home b := by rwa [Home, hstart] at hhome
    have hlog : ∀ k, s'.logBlock k = s.logBlock k := fun k => by rw [logBlock, logBlock, hstart]
    rw [replay, hhead', hlog]
    split
    · rename_i hmem
      have hidx := idxOf_lt_length_of_mem hmem
      rw [hcopied' _ hidx, entry, getD_eq_getElem _ _ hidx, getElem_idxOf]
    · rename_i hmem
      have hne : b ≠ s.start := by
        rintro rfl
        exact not_home_start hhome'
      rw [hdisk, update_of_ne hne]
      refine h.disk_eq_store hin (fun j P hP => ?_) hhome' (hpinned ▸ hmem)
      rw [hpc] at hP
      cases hP
      rw [hblock]
      exact not_home_start
  refine h.wrote hphase hs hin hdirty rfl rfl (by rw [hhead', hstart]; exact h.entries) hreplay ?_ ?_
  · refine ⟨by rw [hs]; exact hboot, by rw [hs]; exact hpinned, ?_, ?_, ?_⟩
    · rw [hs] at hcopied' ⊢
      exact hcopied'
    · rw [hhead', hs]
      rfl
    · rw [hs]
      exact fun _ _ => rfl
  · rw [hs, hpc]
    exact fun j x => Iff.rfl

theorem Inv.clear_point (h : Inv s) (hpc : s.pc p = .writeHead true (.write i))
    (hphase : Phase s') (hdirty : s.cache.hold p i = .dirty)
    (hs : s' = (s.bwrite p i).goto p (.writeHead true (.release i))) : Inv s' := by
  have hin : (s.pc p).inCommit := by rw [hpc]; rfl
  have hfacts := h.logFacts p
  have hbuf := h.bufFacts p
  rw [hpc] at hfacts hbuf
  obtain ⟨hlh, hpinned, hsettled, -⟩ := hfacts
  obtain ⟨-, hnames⟩ := hbuf.has i _ mem_cons_self
  obtain ⟨-, hdata⟩ := hbuf.changed i _ rfl
  have hblock : (s.cache.buf i).blockno = s.start := hnames.2
  have hdisk : s'.disk = Function.update s.disk s.start (s.cache.buf i).data := by
    rw [hs, ← hblock]
    rfl
  have hstart : s'.start = s.start := by rw [hs]; rfl
  have hhead' : s'.head = [] := by
    rw [head, hdisk, hstart, update_self, ← hlh]
    exact hdata
  have hsettled' : ∀ b, s'.Home b → s'.disk b = s.durable b := by
    intro b hhome
    have hhome' : s.Home b := by rwa [Home, hstart] at hhome
    have hne : b ≠ s.start := by
      rintro rfl
      exact not_home_start hhome'
    rw [hdisk, update_of_ne hne]
    exact hsettled b hhome'
  refine h.wrote hphase (by rw [hs]) hin hdirty rfl rfl ?_ ?_ ?_ ?_
  · rw [hhead', hstart, ← hlh]
    exact h.entries
  · intro b hhome
    rw [replay, hhead', if_neg (not_mem_nil)]
    exact hsettled' b hhome
  · refine ⟨by rw [hs]; exact hlh, by rw [hs]; exact hpinned, ?_, fun _ => hhead'⟩
    rw [hs] at hsettled' ⊢
    exact hsettled'
  · rw [hs, hpc]
    exact fun j x => Iff.rfl

theorem Inv.writeHeadStep {clear : Bool} {pos : HeadPc} (h : Inv s) (hp : p < NPROC)
    (hphase : Phase s') (hpc : s.pc p = .writeHead clear pos)
    (hs : s.writeHeadStep p clear pos = some s') : Inv s' := by
  have hin : (s.pc p).inCommit := by rw [hpc]; rfl
  have hfacts := h.logFacts p
  have hbuf := h.bufFacts p
  rw [hpc] at hfacts hbuf
  cases pos <;> rw [LogState.writeHeadStep] at hs
  case get =>
    have hnone : s.changes (s.pc p) = none := by rw [hpc]; rfl
    obtain ⟨-, hs⟩ := ite_none_right_eq_some.mp hs
    refine h.got hp hphase hin hnone hs fun i => ⟨rfl, rfl, ?_, ?_⟩
    · cases clear <;> exact hfacts
    · intro j x
      rw [hpc]
      simp [buffers]
  case edit i =>
    have hnone : s.changes (s.pc p) = none := by rw [hpc]; rfl
    obtain ⟨-, hnames⟩ := hbuf.has i _ mem_cons_self
    obtain ⟨hready, hs⟩ := ite_none_right_eq_some.mp hs
    have hfilled : (s.cache.hold p i).filled := by rw [hready]; rfl
    have harea : ¬ s.Home (s.cache.buf i).blockno := by
      rw [hnames.2]
      exact not_home_start
    obtain rfl := some.inj hs
    refine h.edited hphase rfl hin hnone hfilled rfl (h.edit_area hfilled harea) rfl
      (readHead_writeHead _ h.entries.lt_size h.entries.small) ?_ ?_
    · cases clear <;> exact hfacts
    · rw [hpc]
      exact fun j x => Iff.rfl
  case write i =>
    obtain ⟨hdirty, hs⟩ := ite_none_right_eq_some.mp hs
    cases clear
    · exact h.commit_point hpc hphase hdirty (some.inj hs).symm
    · exact h.clear_point hpc hphase hdirty (some.inj hs).symm
  case release i =>
    have hnone : s.changes (s.pc p) = none := by rw [hpc]; rfl
    cases clear
    · obtain ⟨hboot, hpinned, -, hhead, hdurable⟩ := hfacts
      refine h.released hphase hin hnone hs rfl rfl ?_ ?_
      · refine ⟨hhead, Nat.zero_le _, fun hinside => (by cases hinside), fun _ => hdurable,
          fun k hk => absurd hk (Nat.not_lt_zero k), ?_⟩
        rw [hboot]
        exact hpinned
      · rw [hpc]
        exact mem_release (fun _ => mem_cons) (by rintro _ ⟨⟩)
    · obtain ⟨hlh, hpinned, -, hhead⟩ := hfacts
      refine h.released hphase hin hnone hs rfl rfl ⟨hlh, hpinned, hhead rfl⟩ ?_
      rw [hpc]
      exact mem_release (fun _ => mem_cons) (by rintro _ ⟨⟩)

end LogState

end EAFITos
