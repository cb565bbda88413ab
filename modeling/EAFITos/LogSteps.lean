/-
What the steps of the log's machine can do: one lemma for each operation, with the
conditions under which it runs and the state it leaves.
-/
import EAFITos.BlockStore
import EAFITos.Log

namespace EAFITos

open Option Function

namespace LogPc

/-- Between `begin_op` and `end_op`. -/
def inOp : LogPc → Nat
  | .op _ _ => 1
  | _ => 0

/-- The blocks an operation may still log. -/
def reserve : LogPc → Nat
  | .op _ logged => MAXOPBLOCKS - logged.length
  | _ => 0

/-- In `commit` or `recover_from_log`. -/
def inCommit : LogPc → Bool
  | .idle | .op _ _ => false
  | _ => true

/-- In `read_head`. -/
def reading : LogPc → Bool
  | .readHead _ => true
  | _ => false

/-- In the part of `commit` after `log.lh.n = 0`. -/
def cleared : LogPc → Bool
  | .writeHead clear _ => clear
  | .endCommit => true
  | _ => false

/-- What a step of `commit` is to the store of blocks: the first `bwrite` of the header
commits. -/
def blockOp : LogPc → BlockOp
  | .writeHead false (.write _) => .commit
  | _ => .stay

theorem blockOp_writeHead {clear : Bool} {pos : HeadPc} (h : ∀ i, pos ≠ .write i) :
    (LogPc.writeHead clear pos).blockOp = .stay := by
  cases clear <;> cases pos <;> first | rfl | exact absurd rfl (h _)

theorem inCommit_of_cleared {pc : LogPc} (h : pc.cleared) : pc.inCommit := by
  cases pc <;> simp_all [cleared, inCommit]

theorem inCommit_of_reading {pc : LogPc} (h : pc.reading) : pc.inCommit := by
  cases pc <;> simp_all [reading, inCommit]

theorem inOp_of_inCommit {pc : LogPc} (h : pc.inCommit) : pc.inOp = 0 := by
  cases pc <;> simp_all [inOp, inCommit]

theorem inCommit_of_inOp {pc : LogPc} (h : pc.inOp = 1) : pc.inCommit = false := by
  cases pc <;> first | rfl | cases h

theorem reserve_of_inOp {pc : LogPc} (h : pc.inOp = 0) : pc.reserve = 0 := by
  cases pc <;> simp_all [inOp, reserve]

end LogPc

namespace LogState

variable {s s' : LogState} {p q i b : Nat} {pc : LogPc} {e : LogEvent}

@[simp] theorem goto_pc_self : (s.goto p pc).pc p = pc := by simp [goto]

theorem goto_pc_of_ne (h : q ≠ p) : (s.goto p pc).pc q = s.pc q := by
  simp [goto, update_of_ne h]

theorem goto_pc_eq : s.goto p (s.pc p) = s := by rw [goto, update_eq_self]

/-- The two states agree on everything of `log` that is in memory. -/
def SameLog (s s' : LogState) : Prop :=
  s'.outstanding = s.outstanding ∧ s'.committing = s.committing ∧ s'.lh = s.lh ∧
    s'.booting = s.booting

theorem SameLog.refl (s : LogState) : s.SameLog s := ⟨rfl, rfl, rfl, rfl⟩

theorem bget_spec {next : Nat → LogPc} (h : s.bget p b next = some s') :
    ¬ s.cache.Uses p ROOTDEV b ∧
      ((∃ i cache, Bcache.Got s.cache p ROOTDEV b i cache ∧
        s' = (s.setCache cache).goto p (next i)) ∨
      (s.cache.bget p ROOTDEV b = none ∧ s' = s.fail "bget: no buffers")) := by
  rw [bget] at h
  split at h
  case isTrue => cases h
  case isFalse hnot =>
    refine ⟨hnot, ?_⟩
    split at h
    case h_1 i cache hget => exact .inl ⟨i, cache, Bcache.bget_got hget, (some.inj h).symm⟩
    case h_2 hnone => exact .inr ⟨hnone, (some.inj h).symm⟩

theorem release_spec (h : s.release p i pc = some s') :
    ∃ cache, s.cache.releasesleep p i = some cache ∧ s' = (s.setCache cache).goto p pc := by
  rw [release, map_eq_some_iff] at h
  obtain ⟨cache, hcache, rfl⟩ := h
  exact ⟨cache, hcache, rfl⟩

/-- What `bget` does to the log: nothing but a move of the process, or a panic. -/
theorem bget_log {next : Nat → LogPc} (h : s.bget p b next = some s') :
    s.SameLog s' ∧ (s'.pc = s.pc ∨ ∃ i, s'.pc = update s.pc p (next i)) := by
  obtain ⟨-, ⟨i, cache, -, rfl⟩ | ⟨-, rfl⟩⟩ := bget_spec h
  · exact ⟨SameLog.refl s, .inr ⟨i, rfl⟩⟩
  · exact ⟨SameLog.refl s, .inl rfl⟩

theorem release_log (h : s.release p i pc = some s') :
    s.SameLog s' ∧ s'.pc = update s.pc p pc := by
  obtain ⟨cache, -, rfl⟩ := release_spec h
  exact ⟨SameLog.refl s, rfl⟩

/-- What a step of `commit` does to the log. -/
inductive CommitMove (s s' : LogState) (p : Nat) : Prop
  | stay : s.SameLog s' → s'.pc = s.pc → CommitMove s s' p
  | move (pc : LogPc) : s.SameLog s' → s'.pc = update s.pc p pc → pc.inCommit →
      pc.reading = false → (pc.cleared → (s.pc p).cleared) → CommitMove s s' p
  | clear (pc : LogPc) : { s with lh := [] }.SameLog s' → s'.pc = update s.pc p pc →
      pc.inCommit → pc.reading = false → CommitMove s s' p
  | read (pc : LogPc) (lh : List Nat) : (s.pc p).reading → { s with lh := lh }.SameLog s' →
      s'.pc = update s.pc p pc → pc.inCommit → CommitMove s s' p
  | finish : s.pc p = .endCommit →
      s' = { s with committing := false, booting := false }.goto p .idle → CommitMove s s' p

theorem CommitMove.of_bget {next : Nat → LogPc} (h : s.bget p b next = some s')
    (hnext : ∀ i, (next i).inCommit ∧ (next i).reading = false ∧
      ((next i).cleared → (s.pc p).cleared)) : CommitMove s s' p := by
  obtain ⟨hlog, hstay | ⟨i, hmove⟩⟩ := bget_log h
  · exact .stay hlog hstay
  · exact .move _ hlog hmove (hnext i).1 (hnext i).2.1 (hnext i).2.2

theorem CommitMove.of_release (h : s.release p i pc = some s') (hin : pc.inCommit)
    (hread : pc.reading = false) (hcleared : pc.cleared → (s.pc p).cleared) :
    CommitMove s s' p :=
  .move _ (release_log h).1 (release_log h).2 hin hread hcleared

theorem writeLogStep_move {tail : Nat} {pos : CopyPc} (h : s.writeLogStep p tail pos = some s') :
    CommitMove s s' p := by
  cases pos <;> rw [writeLogStep] at h
  case getLog =>
    split at h
    · split at h
      · exact .of_bget h fun _ => ⟨rfl, rfl, nofun⟩
      · cases h
    · cases h
      exact .move _ (SameLog.refl s) rfl rfl rfl nofun
  case getHome l =>
    split at h
    · exact .of_bget h fun _ => ⟨rfl, rfl, nofun⟩
    · cases h
  case copy l d =>
    split at h
    · cases h
      exact .move _ (SameLog.refl s) rfl rfl rfl nofun
    · cases h
  case write l d =>
    split at h
    · cases h
      exact .move _ (SameLog.refl s) rfl rfl rfl nofun
    · cases h
  case unpin l d => cases h
  case release l d => exact .of_release h rfl rfl nofun
  case finish l d =>
    split at h
    · exact .of_release h rfl rfl nofun
    · cases h

theorem writeHeadStep_move {clear : Bool} {pos : HeadPc} (hpc : s.pc p = .writeHead clear pos)
    (h : s.writeHeadStep p clear pos = some s') : CommitMove s s' p := by
  have hcleared : ∀ pos, (LogPc.writeHead clear pos).cleared → (s.pc p).cleared :=
    fun _ hc => by rw [hpc]; exact hc
  cases pos <;> rw [writeHeadStep] at h
  case get =>
    split at h
    · exact .of_bget h fun _ => ⟨rfl, rfl, hcleared _⟩
    · cases h
  case edit i =>
    split at h
    · cases h
      exact .move _ (SameLog.refl s) rfl rfl rfl (hcleared _)
    · cases h
  case write i =>
    split at h
    · cases h
      cases clear
      all_goals exact .move _ (SameLog.refl s) rfl rfl rfl (hcleared _)
    · cases h
  case release i =>
    cases clear
    · exact .of_release h rfl rfl nofun
    · exact .of_release h rfl rfl fun _ => by rw [hpc]; rfl

theorem installStep_move {tail : Nat} {pos : CopyPc} (h : s.installStep p tail pos = some s') :
    CommitMove s s' p := by
  cases pos <;> rw [installStep] at h
  case getLog =>
    split at h
    · split at h
      · exact .of_bget h fun _ => ⟨rfl, rfl, nofun⟩
      · cases h
    · cases h
      exact .clear _ (SameLog.refl _) rfl rfl rfl
  case getHome l =>
    split at h
    · exact .of_bget h fun _ => ⟨rfl, rfl, nofun⟩
    · cases h
  case copy l d =>
    split at h
    · dsimp only at h
      split at h
      all_goals
        cases h
        exact .move _ (SameLog.refl s) rfl rfl rfl nofun
    · cases h
  case write l d =>
    split at h
    · cases h
      exact .move _ (SameLog.refl s) rfl rfl rfl nofun
    · cases h
  case unpin l d =>
    split at h
    all_goals
      cases h
      exact .move _ (SameLog.refl s) rfl rfl rfl nofun
  case release l d => exact .of_release h rfl rfl nofun
  case finish l d =>
    split at h
    · exact .of_release h rfl rfl nofun
    · cases h

theorem readHeadStep_move {pos : HeadPc} (hpc : s.pc p = .readHead pos)
    (h : s.readHeadStep p pos = some s') : CommitMove s s' p := by
  have hread : (s.pc p).reading := by rw [hpc]; rfl
  cases pos <;> rw [readHeadStep] at h
  case get =>
    split at h
    · obtain ⟨hlog, hstay | ⟨i, hmove⟩⟩ := bget_log h
      · exact .stay hlog hstay
      · exact .read _ s.lh hread hlog hmove rfl
    · cases h
  case edit i =>
    split at h
    · cases h
      exact .read _ _ hread (SameLog.refl _) rfl rfl
    · cases h
  case write i => cases h
  case release i => exact .of_release h rfl rfl nofun

theorem commitStep_move (h : s.commitStep p = some s') :
    (s.pc p).inCommit ∧ CommitMove s s' p := by
  rw [commitStep] at h
  split at h
  case h_1 tail pos hpc => exact ⟨by rw [hpc]; rfl, writeLogStep_move h⟩
  case h_2 clear pos hpc => exact ⟨by rw [hpc]; rfl, writeHeadStep_move hpc h⟩
  case h_3 tail pos hpc => exact ⟨by rw [hpc]; rfl, installStep_move h⟩
  case h_4 pos hpc => exact ⟨by rw [hpc]; rfl, readHeadStep_move hpc h⟩
  case h_5 hpc =>
    split at h
    · cases h
      exact ⟨by rw [hpc]; rfl, .finish hpc rfl⟩
    · cases h
  case h_6 => cases h

theorem beginOp_spec (h : s.beginOp p = some s') :
    s.pc p = .idle ∧ s.booting = false ∧ s.committing = false ∧
      s.lh.length + (s.outstanding + 1) * MAXOPBLOCKS ≤ LOGBLOCKS ∧
      s' = { s with outstanding := s.outstanding + 1 }.goto p (.op s.commits []) := by
  rw [beginOp] at h
  split at h
  case isTrue hok => exact ⟨hok.1, hok.2.1, hok.2.2.1, hok.2.2.2, (some.inj h).symm⟩
  case isFalse => cases h

/-- The operation after it has logged `b`. -/
def logging (started : Nat) (logged : List Nat) (b : Nat) : LogPc :=
  .op started (if b ∈ logged then logged else logged ++ [b])

/-- What `log_write` does. -/
inductive LogWrite (s : LogState) (p i started : Nat) (logged : List Nat) : LogState → Prop
  | tooBig : LOGBLOCKS ≤ s.lh.length →
      LogWrite s p i started logged (s.fail "too big a transaction")
  | outside : s.outstanding < 1 →
      LogWrite s p i started logged (s.fail "log_write outside of trans")
  | absorbed : s.lh.length < LOGBLOCKS → (s.cache.buf i).blockno ∈ s.lh →
      LogWrite s p i started logged ((s.goto p (logging started logged (s.cache.buf i).blockno)).setCache
        (s.cache.setHold p i .ready))
  | added : s.lh.length < LOGBLOCKS → (s.cache.buf i).blockno ∉ s.lh →
      LogWrite s p i started logged
        { (s.goto p (logging started logged (s.cache.buf i).blockno)).setCache
            ((s.cache.bpin i).setHold p i .ready) with
          lh := s.lh ++ [(s.cache.buf i).blockno]
          pinned := s.pinned ++ [(s.cache.buf i).blockno] }

theorem logWrite_spec (h : s.logWrite p i = some s') :
    ∃ started logged, s.pc p = .op started logged ∧ (s.cache.hold p i).filled ∧
      LogWrite s p i started logged s' := by
  rw [logWrite] at h
  split at h
  case h_1 started logged hpc =>
    refine ⟨started, logged, hpc, ?_⟩
    split at h
    case isTrue hfilled =>
      refine ⟨hfilled, ?_⟩
      dsimp only at h
      split at h
      case isTrue hbig =>
        cases h
        exact .tooBig hbig
      case isFalse hbig =>
        split at h
        case isTrue hout =>
          cases h
          exact .outside hout
        case isFalse =>
          split at h
          case isTrue hmem =>
            cases h
            exact .absorbed (Nat.lt_of_not_le hbig) hmem
          case isFalse hmem =>
            cases h
            exact .added (Nat.lt_of_not_le hbig) hmem
    case isFalse => cases h
  case h_2 => cases h

/-- What the locked part of `end_op` does. -/
inductive EndOp (s : LogState) (p : Nat) : LogState → Prop
  | failed : s.committing →
      EndOp s p ({ s with outstanding := s.outstanding - 1 }.fail "log.committing")
  | commit : s.committing = false → s.outstanding - 1 = 0 →
      EndOp s p ({ s with outstanding := s.outstanding - 1, committing := true }.goto p
        (if 0 < s.lh.length then .writeLog 0 .getLog else .endCommit))
  | leave : s.committing = false → s.outstanding - 1 ≠ 0 →
      EndOp s p ({ s with outstanding := s.outstanding - 1 }.goto p .idle)

theorem endOp_spec (h : s.endOp p = some s') :
    (∃ started logged, s.pc p = .op started logged) ∧ s.cache.Idle p ∧ EndOp s p s' := by
  rw [endOp] at h
  split at h
  case h_1 started logged hpc =>
    refine ⟨⟨started, logged, hpc⟩, ?_⟩
    split at h
    case isTrue hidle =>
      refine ⟨hidle, ?_⟩
      dsimp only at h
      split at h
      case isTrue hcommitting =>
        cases h
        exact .failed hcommitting
      case isFalse hcommitting =>
        have hfalse : s.committing = false := by simpa using hcommitting
        split at h
        case isTrue hlast =>
          cases h
          exact .commit hfalse hlast
        case isFalse hlast =>
          cases h
          exact .leave hfalse hlast
    case isFalse => cases h
  case h_2 => cases h

theorem clientGet_spec (h : s.clientGet p b = some s') :
    (s.pc p).inCommit = false ∧ s.booting = false ∧ s.Home b ∧ b < 2 ^ 32 ∧
      s.bget p b (fun _ => s.pc p) = some s' := by
  rw [clientGet] at h
  split at h
  case h_3 => cases h
  all_goals
    split at h
    case isTrue hok => exact ⟨by simp_all [LogPc.inCommit], hok.1, hok.2.1, hok.2.2, h⟩
    case isFalse => cases h

theorem modify_spec {data : Block} (h : s.modify p i data = some s') :
    (s.pc p).inOp = 1 ∧ (s.cache.hold p i).filled ∧ s' = { s with
      cache := s.cache.edit p i data
      store := update s.store (s.cache.buf i).blockno data } := by
  rw [modify] at h
  split at h
  case h_1 started logged hpc =>
    split at h
    case isTrue hfilled => exact ⟨by rw [hpc]; rfl, hfilled, (some.inj h).symm⟩
    case isFalse => cases h
  case h_2 => cases h

theorem clientRelease_spec (h : s.clientRelease p i = some s') :
    (s.pc p).inCommit = false ∧ s.release p i (s.pc p) = some s' := by
  rw [clientRelease] at h
  split at h
  case h_3 => cases h
  all_goals exact ⟨by simp_all [LogPc.inCommit], h⟩

theorem next_act {action : LogAction} (h : s.next (.act p action) = some s') :
    p < NPROC ∧ s.panic = none ∧ s.act p action = some s' := by
  rw [next] at h
  split at h
  case isTrue hok => exact ⟨hok.1, hok.2, h⟩
  case isFalse => cases h

/-! ## Cache and histories -/

/-- What a step of `p` can do to the cache. -/
inductive CacheMove (disk : Nat → Block) (c : Bcache) (p : Nat) : Bcache → Prop
  | same : CacheMove disk c p c
  | acquired {c' : Bcache} (i : Nat) : c.acquiresleep p i = some c' → CacheMove disk c p c'
  | read {c' : Bcache} (i : Nat) : c.bread disk p i = some c' → CacheMove disk c p c'
  | dropped {c' : Bcache} (i : Nat) : c.brelse p i = some c' → CacheMove disk c p c'
  | released {c' : Bcache} (i : Nat) : c.releasesleep p i = some c' → CacheMove disk c p c'
  | got {c' : Bcache} (b i : Nat) : Bcache.Got c p ROOTDEV b i c' → CacheMove disk c p c'
  | edited (i : Nat) (data : Block) : CacheMove disk c p (c.edit p i data)
  | ready (i : Nat) : CacheMove disk c p (c.setHold p i .ready)
  | pinned (i : Nat) : CacheMove disk c p ((c.bpin i).setHold p i .ready)
  | unpinned (i : Nat) : CacheMove disk c p (c.bunpin i)

/-- What a step is to the store of blocks. -/
def blockOp (s : LogState) : LogEvent → BlockOp
  | .act _ (.modify i data) => .write (s.cache.buf i).blockno data
  | .act p .commit => (s.pc p).blockOp
  | .act _ _ => .stay
  | .crash => .crash

/-- What a step of `p` can do to the histories: nothing, a change by an operation, the
commit, or a block taken over by recovery. -/
inductive History (s s' : LogState) (p : Nat) : BlockOp → Prop
  | keep : s'.store = s.store → s'.durable = s.durable → s'.commits = s.commits →
      History s s' p .stay
  | modified (i : Nat) (data : Block) : (s.pc p).inOp = 1 → (s.cache.hold p i).filled →
      s'.store = update s.store (s.cache.buf i).blockno data → s'.durable = s.durable →
      s'.commits = s.commits → History s s' p (.write (s.cache.buf i).blockno data)
  | committed (i : Nat) : s.pc p = .writeHead false (.write i) → s'.store = s.store →
      s'.durable = s.store → s'.commits = s.commits + 1 → History s s' p .commit
  | recovered (b : Nat) (data : Block) : s.booting → s'.store = update s.store b data →
      s'.durable = s.durable → s'.commits = s.commits → History s s' p .stay

/-- What a step of `p` does to the cache and to the histories. -/
structure Effect (s s' : LogState) (p : Nat) (op : BlockOp) : Prop where
  start : s'.start = s.start
  cache : CacheMove s.disk s.cache p s'.cache
  history : History s s' p op

theorem Effect.keep (h : CacheMove s.disk s.cache p s'.cache)
    (hsame : (s'.start, s'.store, s'.durable, s'.commits) = (s.start, s.store, s.durable, s.commits)) :
    Effect s s' p .stay := by
  simp only [Prod.mk.injEq] at hsame
  exact ⟨hsame.1, h, .keep hsame.2.1 hsame.2.2.1 hsame.2.2.2⟩

theorem Effect.of_bget {next : Nat → LogPc} (h : s.bget p b next = some s') :
    Effect s s' p .stay := by
  obtain ⟨-, ⟨i, cache, hgot, rfl⟩ | ⟨-, rfl⟩⟩ := bget_spec h
  · exact .keep (.got b i hgot) rfl
  · exact .keep .same rfl

theorem Effect.of_release (h : s.release p i pc = some s') :
    Effect s s' p .stay := by
  obtain ⟨cache, hcache, rfl⟩ := release_spec h
  exact .keep (.released i hcache) rfl

theorem writeLogStep_effect {tail : Nat} {pos : CopyPc} (h : s.writeLogStep p tail pos = some s') :
    Effect s s' p .stay := by
  cases pos <;> rw [writeLogStep] at h
  case unpin l d => cases h
  case release l d => exact .of_release h
  all_goals split at h
  case getLog.isTrue =>
    split at h
    · exact .of_bget h
    · cases h
  case getLog.isFalse =>
    cases h
    exact .keep .same rfl
  case getHome.isTrue => exact .of_bget h
  case copy.isTrue =>
    cases h
    exact .keep (.edited _ _) rfl
  case write.isTrue =>
    cases h
    exact .keep (.ready _) rfl
  case finish.isTrue => exact .of_release h
  all_goals cases h

theorem writeHeadStep_effect {clear : Bool} {pos : HeadPc} (hpc : s.pc p = .writeHead clear pos)
    (h : s.writeHeadStep p clear pos = some s') :
    Effect s s' p (LogPc.writeHead clear pos).blockOp := by
  cases pos <;> rw [writeHeadStep] at h
  case release i =>
    rw [LogPc.blockOp_writeHead (by nofun)]
    exact .of_release h
  all_goals split at h
  case get.isTrue =>
    rw [LogPc.blockOp_writeHead (by nofun)]
    exact .of_bget h
  case edit.isTrue =>
    rw [LogPc.blockOp_writeHead (by nofun)]
    cases h
    exact .keep (.edited _ _) rfl
  case write.isTrue i _ =>
    cases h
    cases clear
    · exact ⟨rfl, .ready i, .committed i hpc rfl rfl rfl⟩
    · exact .keep (.ready i) rfl
  all_goals cases h

theorem installStep_effect {tail : Nat} {pos : CopyPc} (h : s.installStep p tail pos = some s') :
    Effect s s' p .stay := by
  cases pos <;> rw [installStep] at h
  case release l d => exact .of_release h
  all_goals split at h
  case getLog.isTrue =>
    split at h
    · exact .of_bget h
    · cases h
  case getLog.isFalse =>
    cases h
    exact .keep .same rfl
  case getHome.isTrue => exact .of_bget h
  case copy.isTrue =>
    dsimp only at h
    split at h
    case isTrue hboot =>
      cases h
      exact ⟨rfl, .edited _ _, .recovered _ _ hboot rfl rfl rfl⟩
    case isFalse =>
      cases h
      exact .keep (.edited _ _) rfl
  case write.isTrue =>
    cases h
    exact .keep (.ready _) rfl
  case unpin.isTrue =>
    cases h
    exact .keep .same rfl
  case unpin.isFalse =>
    cases h
    exact .keep (.unpinned _) rfl
  case finish.isTrue => exact .of_release h
  all_goals cases h

theorem readHeadStep_effect {pos : HeadPc} (h : s.readHeadStep p pos = some s') :
    Effect s s' p .stay := by
  cases pos <;> rw [readHeadStep] at h
  case write i => cases h
  case release i => exact .of_release h
  all_goals split at h
  case get.isTrue => exact .of_bget h
  case edit.isTrue =>
    cases h
    exact .keep .same rfl
  all_goals cases h

theorem commitStep_effect (h : s.commitStep p = some s') : Effect s s' p (s.pc p).blockOp := by
  rw [commitStep] at h
  split at h
  case h_1 hpc => exact hpc ▸ writeLogStep_effect h
  case h_2 hpc => exact hpc ▸ writeHeadStep_effect hpc h
  case h_3 hpc => exact hpc ▸ installStep_effect h
  case h_4 hpc => exact hpc ▸ readHeadStep_effect h
  case h_5 hpc =>
    rw [hpc]
    split at h
    · cases h
      exact .keep .same rfl
    · cases h
  case h_6 => cases h

theorem act_effect {action : LogAction} (h : s.act p action = some s') :
    Effect s s' p (s.blockOp (.act p action)) := by
  cases action <;> rw [act] at h
  case acquiresleep i =>
    obtain ⟨cache, hcache, rfl⟩ := map_eq_some_iff.mp h
    exact .keep (.acquired i hcache) rfl
  case bread i =>
    obtain ⟨cache, hcache, rfl⟩ := map_eq_some_iff.mp h
    exact .keep (.read i hcache) rfl
  case brelse i =>
    obtain ⟨cache, hcache, rfl⟩ := map_eq_some_iff.mp h
    exact .keep (.dropped i hcache) rfl
  case beginOp =>
    obtain ⟨-, -, -, -, rfl⟩ := beginOp_spec h
    exact .keep .same rfl
  case get b =>
    obtain ⟨-, -, -, -, hget⟩ := clientGet_spec h
    exact .of_bget hget
  case modify i data =>
    obtain ⟨hop, hfilled, rfl⟩ := modify_spec h
    exact ⟨rfl, .edited i data, .modified i data hop hfilled rfl rfl rfl⟩
  case logWrite i =>
    obtain ⟨started, logged, -, -, hwrite⟩ := logWrite_spec h
    cases hwrite with
    | tooBig _ => exact .keep .same rfl
    | outside _ => exact .keep .same rfl
    | absorbed _ _ => exact .keep (.ready i) rfl
    | added _ _ => exact .keep (.pinned i) rfl
  case release i => exact .of_release (clientRelease_spec h).2
  case endOp =>
    obtain ⟨-, -, hend⟩ := endOp_spec h
    cases hend <;> exact .keep .same rfl
  case commit => exact commitStep_effect h

/-- A step of a process changes only what that process has of the buffers. -/
theorem CacheMove.hold_other {disk : Nat → Block} {c c' : Bcache} (h : CacheMove disk c p c')
    (hq : q ≠ p) : c'.hold q = c.hold q := by
  cases h with
  | same => rfl
  | acquired i hc =>
    rw [Bcache.acquiresleep] at hc
    split at hc <;> cases hc
    exact Bcache.setHold_of_ne_proc hq
  | read i hc =>
    rw [Bcache.bread] at hc
    split at hc <;> cases hc
    exact Bcache.setHold_of_ne_proc hq
  | dropped i hc =>
    rw [Bcache.brelse] at hc
    split at hc <;> cases hc
    split <;> exact Bcache.setHold_of_ne_proc hq
  | released i hc =>
    rw [Bcache.releasesleep] at hc
    split at hc <;> cases hc
    exact Bcache.setHold_of_ne_proc hq
  | got b i hgot =>
    cases hgot with
    | hit _ _ hc => exact hc ▸ Bcache.setHold_of_ne_proc hq
    | recycled _ _ _ hc => exact hc ▸ Bcache.setHold_of_ne_proc hq
  | edited i data => exact Bcache.setHold_of_ne_proc hq
  | ready i => exact Bcache.setHold_of_ne_proc hq
  | pinned i => exact Bcache.setHold_of_ne_proc hq
  | unpinned i => rfl

theorem names_setBuf {c : Bcache} {j : Nat} {x : Buf}
    (h : j = i → x.names (c.buf i).dev (c.buf i).blockno) :
    ((c.setBuf j x).buf i).names (c.buf i).dev (c.buf i).blockno := by
  by_cases hji : i = j
  · rw [hji, Bcache.setBuf_self]
    exact hji ▸ h hji.symm
  · rw [Bcache.setBuf_of_ne hji]
    exact ⟨rfl, rfl⟩

/-- A buffer with references keeps its block. -/
theorem CacheMove.names {disk : Nat → Block} {c c' : Bcache} (h : CacheMove disk c p c')
    (hpos : 0 < (c.buf i).refcnt) : (c'.buf i).names (c.buf i).dev (c.buf i).blockno := by
  cases h with
  | same => exact ⟨rfl, rfl⟩
  | acquired j hc =>
    rw [Bcache.acquiresleep] at hc
    split at hc <;> cases hc
    exact names_setBuf fun hji => hji ▸ ⟨rfl, rfl⟩
  | read j hc =>
    rw [Bcache.bread] at hc
    split at hc <;> cases hc
    refine names_setBuf fun hji => ?_
    split <;> exact hji ▸ ⟨rfl, rfl⟩
  | dropped j hc =>
    have hkeep : ((c.setBuf j { c.buf j with refcnt := (c.buf j).refcnt - 1 }).buf i).names
        (c.buf i).dev (c.buf i).blockno := names_setBuf fun hji => hji ▸ ⟨rfl, rfl⟩
    rw [Bcache.brelse] at hc
    split at hc <;> cases hc
    split <;> exact hkeep
  | released j hc =>
    rw [Bcache.releasesleep] at hc
    split at hc <;> cases hc
    exact names_setBuf fun hji => hji ▸ ⟨rfl, rfl⟩
  | got b j hgot =>
    cases hgot with
    | hit _ _ hc =>
      subst hc
      exact names_setBuf fun hji => hji ▸ ⟨rfl, rfl⟩
    | recycled _ _ hzero hc =>
      subst hc
      refine names_setBuf fun hji => ?_
      rw [hji] at hzero
      omega
  | edited j data => exact names_setBuf fun hji => hji ▸ ⟨rfl, rfl⟩
  | ready j => exact ⟨rfl, rfl⟩
  | pinned j => exact names_setBuf fun hji => hji ▸ ⟨rfl, rfl⟩
  | unpinned j => exact names_setBuf fun hji => hji ▸ ⟨rfl, rfl⟩

end LogState

end EAFITos
