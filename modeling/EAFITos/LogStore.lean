/-
Cache and log refine the store of blocks: every step of the machine is a step of the
store, what `bread` returns is in the store, and recovery leaves on disk what the store
goes back to.
-/
import EAFITos.LogRecovery

namespace EAFITos

open Function List

namespace LogState

variable {s s' s₀ : LogState} {p i b : Nat} {e : LogEvent} {events : List LogEvent}

variable {action : LogAction}

/-- The store that a state stands for.  Only home blocks are in it; until recovery ends
they stand for what it will bring back. -/
def view (s : LogState) : BlockStore where
  current := fun b => if s.Home b then (if s.booting then s.durable b else s.store b) else fun _ => 0
  durable := fun b => if s.Home b then s.durable b else fun _ => 0

theorem view_current (hboot : s.booting = false) (hhome : s.Home b) :
    s.view.current b = s.store b := by
  simp [view, hboot, hhome]

theorem view_durable (hhome : s.Home b) : s.view.durable b = s.durable b := if_pos hhome

theorem view_of_not_home (hhome : ¬ s.Home b) :
    s.view.current b = (fun _ => 0) ∧ s.view.durable b = fun _ => 0 :=
  ⟨if_neg hhome, if_neg hhome⟩

theorem view_eq {a : BlockStore} (hstart : s'.start = s.start)
    (hcurrent : ∀ b, s.Home b → (if s'.booting then s'.durable b else s'.store b) = a.current b)
    (hdurable : ∀ b, s.Home b → s'.durable b = a.durable b)
    (hnone : ∀ b, ¬ s.Home b → a.current b = (fun _ => 0) ∧ a.durable b = fun _ => 0) :
    s'.view = a := by
  have hhome : ∀ b, s'.Home b ↔ s.Home b := fun b => by rw [Home, Home, hstart]
  refine BlockStore.ext (funext fun b => ?_) (funext fun b => ?_)
  all_goals by_cases hb : s.Home b
  · exact (if_pos ((hhome b).mpr hb)).trans (hcurrent b hb)
  · exact (if_neg fun hb' => hb ((hhome b).mp hb')).trans (hnone b hb).1.symm
  · exact (if_pos ((hhome b).mpr hb)).trans (hdurable b hb)
  · exact (if_neg fun hb' => hb ((hhome b).mp hb')).trans (hnone b hb).2.symm

theorem act_booting (hs : s.act p action = some s') :
    s'.booting = s.booting ∨ s.pc p = .endCommit ∧
      s' = { s with committing := false, booting := false }.goto p .idle := by
  cases action <;> rw [act] at hs
  case beginOp =>
    obtain ⟨-, -, -, -, rfl⟩ := beginOp_spec hs
    exact .inl rfl
  case get b =>
    obtain ⟨-, -, -, -, hget⟩ := clientGet_spec hs
    exact .inl (bget_log hget).1.2.2.2
  case modify i data =>
    obtain ⟨-, -, rfl⟩ := modify_spec hs
    exact .inl rfl
  case logWrite i =>
    obtain ⟨started, logged, -, -, hwrite⟩ := logWrite_spec hs
    cases hwrite <;> exact .inl rfl
  case release i => exact .inl (release_log (clientRelease_spec hs).2).1.2.2.2
  case endOp =>
    obtain ⟨-, -, hend⟩ := endOp_spec hs
    cases hend <;> exact .inl rfl
  case commit =>
    obtain ⟨-, hmove⟩ := commitStep_move hs
    cases hmove with
    | stay hlog _ => exact .inl hlog.2.2.2
    | move pc hlog _ _ _ _ => exact .inl hlog.2.2.2
    | clear pc hlog _ _ _ => exact .inl hlog.2.2.2
    | read pc lh _ hlog _ _ => exact .inl hlog.2.2.2
    | finish hpc hs' => exact .inr ⟨hpc, hs'⟩
  all_goals
    obtain ⟨cache, -, rfl⟩ := Option.map_eq_some_iff.mp hs
    exact .inl rfl

theorem booting_act (hs : s.act p action = some s') (hboot : s.booting = false) :
    s'.booting = false := by
  rcases act_booting hs with hsame | ⟨-, rfl⟩
  · rw [hsame, hboot]
  · rfl

theorem Inv.agree_at_end (h : Inv s) (hpc : s.pc p = .endCommit) (hhome : s.Home b) :
    s.disk b = s.durable b ∧ s.store b = s.durable b := by
  have hfacts := h.logFacts p
  rw [hpc] at hfacts
  obtain ⟨-, hpinned, hhead⟩ := hfacts
  have hdisk : s.disk b = s.durable b := by
    rw [← h.durable b hhome, replay, if_neg (by rw [hhead]; exact not_mem_nil)]
  have hstore : s.disk b = s.store b :=
    h.disk_eq_store (p := p) (by rw [hpc]; rfl) (by rw [hpc]; rintro _ _ ⟨⟩) hhome
      (by rw [hpinned]; exact not_mem_nil)
  exact ⟨hdisk, hstore ▸ hdisk⟩

/-- What the current contents stand for when neither they nor the durable ones change. -/
theorem Inv.current_act (h : Inv s) (hs : s.act p action = some s')
    (hstore : s.booting = false → s'.store b = s.store b) (hdurable : s'.durable b = s.durable b)
    (hhome : s.Home b) :
    (if s'.booting then s'.durable b else s'.store b) = s.view.current b := by
  have hview : s.view.current b = if s.booting then s.durable b else s.store b := if_pos hhome
  rw [hview]
  rcases act_booting hs with hboot | ⟨hpc, rfl⟩
  · rw [hboot, hdurable]
    split
    · rfl
    · rename_i hnot
      exact hstore (by simpa using hnot)
  · change s.store b = _
    rw [(h.agree_at_end hpc hhome).2, ite_self]

theorem Inv.view_act (h : Inv s) (hs : s.act p action = some s') :
    s'.view = s.view.apply (s.blockOp (.act p action)) := by
  obtain ⟨hstart, -, hhistory⟩ := act_effect hs
  cases hop : s.blockOp (.act p action) with rw [hop] at hhistory
  | stay =>
    refine view_eq hstart ?_ ?_ fun b hb => view_of_not_home hb
    all_goals
      intro b hb
      cases hhistory with
      | keep hstore hdurable _ => ?_
      | recovered b data hboot hstore hdurable _ => ?_
    · exact h.current_act hs (fun _ => by rw [hstore]) (by rw [hdurable]) hb
    · exact h.current_act hs (fun hnot => by rw [hnot] at hboot; cases hboot) (by rw [hdurable]) hb
    · rw [BlockStore.apply, view_durable hb, hdurable]
    · rw [BlockStore.apply, view_durable hb, hdurable]
  | write b data =>
    cases hhistory with
    | modified i _ hrunning hfilled hstore hdurable _ =>
      have hboot := (h.phase.running hrunning).2
      have hboot' := booting_act hs hboot
      have hmine := (h.mine p i (LogPc.inCommit_of_inOp hrunning) (Stage.active_of_filled hfilled)).1
      refine view_eq hstart ?_ ?_ ?_
      · intro b hb
        rw [hboot', if_neg (by decide), hstore]
        by_cases heq : b = (s.cache.buf i).blockno
        · rw [heq, update_self, BlockStore.write_self]
        · rw [update_of_ne heq, BlockStore.write_of_ne heq, view_current hboot hb]
      · intro b hb
        rw [hdurable, BlockStore.apply, view_durable hb]
      · intro b hb
        have hne : b ≠ (s.cache.buf i).blockno := fun heq => hb (heq ▸ hmine)
        rw [BlockStore.write_of_ne hne]
        exact view_of_not_home hb
  | commit =>
    cases hhistory with
    | committed i hpc hstore hdurable _ =>
      have hfacts := h.logFacts p
      rw [hpc] at hfacts
      have hboot' := booting_act hs hfacts.1
      refine view_eq hstart ?_ ?_ fun b hb => ⟨(view_of_not_home hb).1, (view_of_not_home hb).1⟩
      · intro b hb
        rw [hboot', if_neg (by decide), hstore, BlockStore.apply, view_current hfacts.1 hb]
      · intro b hb
        rw [hdurable]
        exact (view_current hfacts.1 hb).symm
  | crash => cases hhistory

theorem Inv.view_next (h : Inv s) (hs : s.next e = some s') :
    s'.view = s.view.apply (s.blockOp e) := by
  cases e with
  | act p action => exact h.view_act (next_act hs).2.2
  | crash =>
    cases hs
    rfl

/-- What a run is to the store of blocks. -/
def blockOps (s : LogState) : List LogEvent → List BlockOp
  | [] => []
  | e :: rest => s.blockOp e :: match s.next e with
    | some s' => s'.blockOps rest
    | none => []

/-- The store of blocks after a run. -/
def storeAfter (s : LogState) (events : List LogEvent) : BlockStore :=
  (s.blockOps events).foldl BlockStore.apply s.view

theorem Inv.run (h : Inv s) (hrun : Machine.run LogState.next s events = some s') :
    Inv s' ∧ s'.view = s.storeAfter events := by
  rw [storeAfter]
  induction events generalizing s with
  | nil =>
    cases hrun
    exact ⟨h, rfl⟩
  | cons e rest ih =>
    rw [Machine.run, Option.bind_eq_some_iff] at hrun
    obtain ⟨s1, hnext, hrest⟩ := hrun
    obtain ⟨hinv, hview⟩ := ih (h.next hnext) hrest
    refine ⟨hinv, ?_⟩
    rw [hview, blockOps, hnext, foldl_cons, h.view_next hnext]

theorem booting_run (hboot : s.booting = false) (hevents : ∀ e ∈ events, e ≠ .crash)
    (hrun : Machine.run LogState.next s events = some s') : s'.booting = false := by
  induction events generalizing s with
  | nil =>
    cases hrun
    exact hboot
  | cons e rest ih =>
    rw [Machine.run, Option.bind_eq_some_iff] at hrun
    obtain ⟨s1, hnext, hrest⟩ := hrun
    refine ih ?_ (fun e he => hevents e (mem_cons_of_mem _ he)) hrest
    cases e with
    | act p action => exact booting_act (next_act hnext).2.2 hboot
    | crash => exact absurd rfl (hevents .crash mem_cons_self)

/-! ## Reading -/

/-- The entries of the header that a process at `pc` of `install_trans` has written home. -/
def writtenHome (s : LogState) : LogPc → List Nat
  | .install tail pos => s.lh.take (tail + pos.written.toNat)
  | _ => []

/-- Logged blocks stay pinned until they are written home. -/
theorem Inv.pinned_entry (h : Inv s) (hboot : s.booting = false) (hb : b ∈ s.lh)
    (hnot : ∀ p, b ∉ s.writtenHome (s.pc p)) : b ∈ s.pinned := by
  by_cases hcommitting : s.committing
  · obtain ⟨p, hin⟩ := h.phase.busy (.inl hcommitting)
    have hfacts := h.logFacts p
    have hnotp := hnot p
    cases hpc : s.pc p <;> rw [hpc] at hfacts hin hnotp
    case idle => cases hin
    case op started logged => cases hin
    case readHead pos => exact absurd hfacts.1 (by rw [hboot]; decide)
    case writeLog tail pos => rwa [hfacts.2.2.1]
    case writeHead clear pos =>
      cases clear
      · rwa [hfacts.2.1]
      · rw [hfacts.1] at hb
        cases hb
    case install tail pos =>
      obtain ⟨-, -, -, -, -, hpinned⟩ := hfacts
      have hle : tail + pos.unpinned.toNat ≤ tail + pos.written.toNat := by
        cases pos <;> simp [CopyPc.unpinned, CopyPc.written]
      rw [hpinned, hboot, if_neg (by decide)]
      rw [← take_append_drop (tail + pos.unpinned.toNat) s.lh, mem_append] at hb
      refine hb.resolve_left fun htake => hnotp ?_
      exact (take_subset_take_left s.lh hle) htake
    case endCommit =>
      rw [hfacts.1] at hb
      cases hb
  · rw [(h.rest (by simpa using hcommitting) hboot).2]
    exact hb

/-- A pinned block keeps its buffer. -/
theorem Inv.keeps_pinned (h : Inv s) (hb : b ∈ s.pinned) :
    ∃ i, i < NBUF ∧ (s.cache.buf i).names ROOTDEV b ∧ 0 < (s.cache.buf i).refcnt ∧
      ∀ p action s', s.next (.act p action) = some s' → (s'.cache.buf i).names ROOTDEV b := by
  obtain ⟨i, hi, hnames, -⟩ := h.coherent.held b hb
  have hpos : 0 < (s.cache.buf i).refcnt := by
    have hpins := h.coherent.pins i hi
    rw [if_pos ⟨hnames.1, hnames.2.symm ▸ hb⟩] at hpins
    have hrefs := h.coherent.ok.refs i hi
    omega
  refine ⟨i, hi, hnames, hpos, fun p action s' hs => ?_⟩
  obtain ⟨hdev, hblockno⟩ := (act_effect (next_act hs).2.2).cache.names hpos
  exact ⟨hdev.trans hnames.1, hblockno.trans hnames.2⟩

/-- **Reading.**  After every run without a crash a buffer that has been read has what was
last written to its block, or what the disk had at the start; and no step recycles the
buffer of a logged block before `install_trans` has written it home. -/
theorem cache_refines_store (hinit : Initial s₀) (hevents : ∀ e ∈ events, e ≠ .crash)
    (hrun : Machine.run next s₀ events = some s) :
    (∀ p i, (s.cache.hold p i).filled → s.Home (s.cache.buf i).blockno →
      (s.cache.buf i).data = (s₀.storeAfter events).current (s.cache.buf i).blockno) ∧
    ∀ b ∈ s.lh, (∀ p, b ∉ s.writtenHome (s.pc p)) →
      ∃ i, i < NBUF ∧ (s.cache.buf i).names ROOTDEV b ∧ 0 < (s.cache.buf i).refcnt ∧
        ∀ p action s', s.next (.act p action) = some s' → (s'.cache.buf i).names ROOTDEV b := by
  obtain ⟨hinv, hview⟩ := hinit.inv.run hrun
  have hboot := booting_run hinit.booting hevents hrun
  constructor
  · intro p i hfilled hhome
    have hhold := Stage.ne_free_of_holding (Stage.holding_of_filled hfilled)
    obtain ⟨-, hi, hdev⟩ := hinv.coherent.inUse hhold
    rw [← hview, view_current hboot hhome]
    exact hinv.coherent.cached i hi hdev (hinv.coherent.ok.valid p i hfilled) hhome
  · exact fun b hb hnot => hinv.keeps_pinned (hinv.pinned_entry hboot hb hnot)

/-- One process changes a block and logs it. -/
def changeOne : List LogEvent :=
  [.act 0 .beginOp, .act 0 (.get 100), .act 0 (.acquiresleep 0), .act 0 (.bread 0),
    .act 0 (.modify 0 fun _ => 7), .act 0 (.logWrite 0)]

theorem cache_refines_store_changed : ∃ s, Initial (fresh 2) ∧ (∀ e ∈ changeOne, e ≠ .crash) ∧
    Machine.run next (fresh 2) changeOne = some s ∧ (s.cache.hold 0 0).filled ∧
    (s.cache.buf 0).data 0 = 7 ∧
    (s.cache.buf 0).data = ((fresh 2).storeAfter changeOne).current (s.cache.buf 0).blockno := by
  have hview : (Machine.run next (fresh 2) changeOne).map (fun s =>
      (decide ((s.cache.hold 0 0).filled ∧ s.Home (s.cache.buf 0).blockno), (s.cache.buf 0).data 0)) =
      some (true, 7) := by decide +kernel
  obtain ⟨s, hrun, hs⟩ := Option.map_eq_some_iff.mp hview
  simp only [Prod.mk.injEq, decide_eq_true_eq] at hs
  have hevents : ∀ e ∈ changeOne, e ≠ .crash := by simp [changeOne]
  exact ⟨s, fresh_initial 2, hevents, hrun, hs.1.1, hs.2,
    (cache_refines_store (fresh_initial 2) hevents hrun).1 0 0 hs.1.1 hs.1.2⟩

/-! ## Crashes -/

theorem Inv.disk_durable (h : Inv s) (hcommitting : s.committing = false)
    (hboot : s.booting = false) (hhome : s.Home b) : s.disk b = s.durable b := by
  rw [← h.durable b hhome, replay, (h.rest hcommitting hboot).1, if_neg not_mem_nil]

/-- **Crashes.**  After every run, with any crashes in it, a restart recovers, and whenever
a recovery ends it leaves on disk what the last commit made durable; and no operation is
under way at a commit. -/
theorem crash_atomic (hinit : Initial s₀) (hrun : Machine.run next s₀ events = some s) :
    (∃ recovery s', (∀ e ∈ recovery, ofFirst e) ∧
      Machine.run next s (.crash :: recovery) = some s' ∧ s'.panic = none ∧ s'.booting = false ∧
      ∀ b, s.Home b → s'.disk b = (s₀.storeAfter events).durable b) ∧
    (∀ e s', s.booting → s.next e = some s' → s'.booting = false →
      ∀ b, s.Home b → s'.disk b = (s₀.storeAfter events).durable b) ∧
    ∀ e s', s.next e = some s' → s.blockOp e = .commit → ∀ p, (s.pc p).inOp = 0 := by
  obtain ⟨hinv, hview⟩ := hinit.inv.run hrun
  refine ⟨?_, ?_, ?_⟩
  · obtain ⟨recovery, s', hfirst, hrun', hinv', hstart, hdurable, hpanic, hboot, hcommitting⟩ :=
      hinv.recovery_ends
    refine ⟨recovery, s', hfirst, hrun', hpanic, hboot, fun b hhome => ?_⟩
    have hhome' : s'.Home b := by rw [Home, hstart]; exact hhome
    rw [hinv'.disk_durable hcommitting hboot hhome', hdurable, ← hview, view_durable hhome]
  · intro e s' hboot hs hboot' b hhome
    cases e with
    | crash =>
      obtain rfl := Option.some.inj hs
      cases hboot'
    | act p action =>
      rcases act_booting (next_act hs).2.2 with hsame | ⟨hpc, rfl⟩
      · rw [hboot', hboot] at hsame
        cases hsame
      · rw [← hview, view_durable hhome]
        exact (hinv.agree_at_end hpc hhome).1
  · intro e s' hs hop p
    cases e with
    | crash => cases hop
    | act q action =>
      have hhistory := (act_effect (next_act hs).2.2).history
      rw [hop] at hhistory
      cases hhistory with
      | committed i hpc _ _ _ =>
        have hin : (s.pc q).inCommit := by rw [hpc]; rfl
        exact hinv.phase.inOp_eq_zero (hinv.phase.quiet (hinv.phase.committer q hin).1) p

/-- The change of a block, up to the write of the header that commits it. -/
def commitOne : List LogEvent :=
  changeOne ++ [.act 0 (.release 0), .act 0 (.brelse 0), .act 0 .endOp] ++
    -- `write_log`
    [.act 0 .commit, .act 0 (.acquiresleep 1), .act 0 (.bread 1), .act 0 .commit,
      .act 0 (.acquiresleep 0), .act 0 (.bread 0), .act 0 .commit, .act 0 .commit, .act 0 .commit,
      .act 0 (.brelse 0), .act 0 .commit, .act 0 (.brelse 1), .act 0 .commit] ++
    -- `write_head`
    [.act 0 .commit, .act 0 (.acquiresleep 2), .act 0 (.bread 2), .act 0 .commit, .act 0 .commit]

theorem crash_atomic_committed : ∃ s recovery s', Initial (fresh 2) ∧
    Machine.run next (fresh 2) commitOne = some s ∧ s.pc 0 = .writeHead false (.release 2) ∧
    (s.disk 100) 0 = 0 ∧ Machine.run next s (.crash :: recovery) = some s' ∧
    s'.disk 100 = ((fresh 2).storeAfter commitOne).durable 100 := by
  have hview : (Machine.run next (fresh 2) commitOne).map (fun s =>
      (s.pc 0, s.disk 100 0, decide (s.Home 100))) = some (.writeHead false (.release 2), 0, true) := by
    decide +kernel
  obtain ⟨s, hrun, hs⟩ := Option.map_eq_some_iff.mp hview
  simp only [Prod.mk.injEq, decide_eq_true_eq] at hs
  obtain ⟨recovery, s', -, hrun', -, -, hdisk⟩ := (crash_atomic (fresh_initial 2) hrun).1
  exact ⟨s, recovery, s', fresh_initial 2, hrun, hs.1, hs.2.1, hrun', hdisk 100 hs.2.2⟩

end LogState

end EAFITos
