/-
Which blocks the operations of the file system change and which they pass to `log_write`, from any
state of the disk.
-/
import EAFITos.FsFiles

namespace EAFITos

open Function List Prog

/-- A block of the free bitmap. -/
def IsBitmap (sb : Superblock) (b : Nat) : Prop := ∃ c, c < sb.size ∧ b = sb.bblock c

namespace Fs

/-- Blocks with `allowed` have been passed to `log_write`. -/
def Adds (allowed : Nat → Prop) (s s' : Fs) : Prop :=
  ∃ new, s'.logged = new ++ s.logged ∧ ∀ b ∈ new, allowed b

/-- Every block that has been changed is in the log. -/
structure Persists (s s' : Fs) : Prop where
  changed : ∀ b, s'.disk b ≠ s.disk b → b ∈ s'.logged
  before : ∀ b, b ∈ s.logged → b ∈ s'.logged

variable {sb : Superblock} {s s' s'' : Fs} {ip : Inode} {b bn : Nat} {allowed allowed' : Nat → Prop}

theorem Adds.refl (allowed : Nat → Prop) (s : Fs) : Adds allowed s s := ⟨[], rfl, nofun⟩

theorem Adds.mono (h : Adds allowed s s') (himp : ∀ b, allowed b → allowed' b) :
    Adds allowed' s s' := by
  obtain ⟨new, hlogged, hnew⟩ := h
  exact ⟨new, hlogged, fun b hb => himp b (hnew b hb)⟩

theorem Adds.trans (h : Adds allowed s s') (h' : Adds allowed s' s'') : Adds allowed s s'' := by
  obtain ⟨new, hlogged, hnew⟩ := h
  obtain ⟨new', hlogged', hnew'⟩ := h'
  refine ⟨new' ++ new, by rw [hlogged', hlogged, append_assoc], fun b hb => ?_⟩
  rcases mem_append.mp hb with hmem | hmem
  · exact hnew' b hmem
  · exact hnew b hmem

theorem Adds.log {disk : Disk} (h : allowed b) : Adds allowed s { disk, logged := b :: s.logged } :=
  ⟨[b], rfl, fun _ hc => mem_singleton.mp hc ▸ h⟩

theorem Persists.refl (s : Fs) : Persists s s := ⟨fun _ hne => absurd rfl hne, fun _ hb => hb⟩

theorem Persists.trans (h : Persists s s') (h' : Persists s' s'') : Persists s s'' where
  changed := fun b hne => by
    by_cases heq : s''.disk b = s'.disk b
    · rw [heq] at hne
      exact h'.before b (h.changed b hne)
    · exact h'.changed b heq
  before := fun b hb => h'.before b (h.before b hb)

/-- A buffer is changed and logged. -/
theorem Persists.log (block : Block) :
    Persists s { disk := Function.update s.disk b block, logged := b :: s.logged } where
  changed := fun c hne => by
    by_cases hc : c = b
    · exact mem_cons.mpr (.inl hc)
    · exact absurd (update_of_ne hc _ _) hne
  before := fun _ hc => mem_cons_of_mem _ hc

/-! ## `balloc` and `bmap` -/

theorem Balloc.persists (h : Balloc sb s b s') : Persists s s' := by
  cases h with
  | full _ => exact .refl s
  | found b _ _ _ =>
    exact (Persists.log ((s.disk (sb.bblock b)).setBit (b % BPB))).trans (.log fun _ => 0)

theorem Balloc.adds (h : Balloc sb s b s') : Adds (fun c => IsBitmap sb c ∨ c = b) s s' := by
  cases h with
  | full _ => exact .refl _ s
  | found b hsize _ _ =>
    refine ⟨[b, sb.bblock b], rfl, fun c hc => ?_⟩
    rcases mem_cons.mp hc with rfl | hc
    · exact .inr rfl
    · rw [mem_singleton.mp hc]
      exact .inl ⟨b, hsize, rfl⟩

/-- The blocks that one call of `bmap` may log: the bitmap, the indirect block of the inode as it is
afterwards, and the block that it returns. -/
def BmapLogs (sb : Superblock) (r : Inode × Nat) (c : Nat) : Prop :=
  IsBitmap sb c ∨ (c ≠ 0 ∧ c = r.1.addrs NDIRECT) ∨ c = r.2

/-- What `bmap` keeps in every state: changes are logged, and an inode does not lose its indirect
block. -/
structure Mapped (sb : Superblock) (ip : Inode) (s : Fs) (r : Inode × Nat) (s' : Fs) : Prop where
  persists : Persists s s'
  adds : Adds (BmapLogs sb r) s s'
  indirect : ip.addrs NDIRECT ≠ 0 → r.1.addrs NDIRECT = ip.addrs NDIRECT
  inum : r.1.inum = ip.inum

theorem Mapped.refl (addr : Nat) : Mapped sb ip s (ip, addr) s :=
  ⟨.refl s, .refl _ s, fun _ => rfl, rfl⟩

theorem bmapSlot_mapped (sb : Superblock) (ip : Inode) (s : Fs) {k : Nat} (hk : k ≤ NDIRECT) :
    (bmapSlot sb ip k).Holds s (fun r s' => Mapped sb ip s r s' ∧
      (k = NDIRECT → r.2 ≠ 0 → r.1.addrs NDIRECT = r.2)) fun _ => False := by
  rw [bmapSlot]
  by_cases hzero : ip.addrs k = 0
  · rw [if_pos hzero]
    refine (balloc_spec sb s).bind fun b s' hballoc => ?_
    have hadds : ∀ ip', Adds (BmapLogs sb (ip', b)) s s' := fun ip' =>
      hballoc.adds.mono fun c hc => hc.imp_right .inr
    by_cases hb : b = 0
    · rw [if_pos hb]
      subst hb
      exact (holds_pure _).mpr
        ⟨⟨hballoc.persists, hadds ip, fun _ => rfl, rfl⟩, fun _ hne => absurd rfl hne⟩
    · rw [if_neg hb]
      refine (holds_pure _).mpr
        ⟨⟨hballoc.persists, hadds _, fun hne => ?_, rfl⟩, fun hk _ => ?_⟩
      · have hne' : NDIRECT ≠ k := by
          rintro rfl
          exact hne hzero
        exact update_of_ne hne' _ _
      · subst hk
        exact update_self NDIRECT b ip.addrs
  · rw [if_neg hzero]
    exact (holds_pure _).mpr ⟨.refl _, fun hk _ => by rw [hk]⟩

theorem bmapEntry_mapped (sb : Superblock) (ip : Inode) (s : Fs) (j : Nat)
    (hne : ip.addrs NDIRECT ≠ 0) :
    (bmapEntry sb (ip.addrs NDIRECT) j).Holds s (fun addr s' => Mapped sb ip s (ip, addr) s')
      fun _ => False := by
  rw [bmapEntry, holds_bind, bread, holds_read]
  by_cases hzero : (s.disk (ip.addrs NDIRECT)).uint j = 0
  · rw [if_pos hzero]
    refine (balloc_spec sb s).bind fun b s' hballoc => ?_
    have hadds : Adds (BmapLogs sb (ip, b)) s s' := hballoc.adds.mono fun c hc => hc.imp_right .inr
    rw [holds_bind, holds_when]
    refine ⟨fun _ => ?_, fun _ => ?_⟩
    · simp only [modify, logWrite, holds_bind, holds_update, holds_pure]
      exact ⟨hballoc.persists.trans (.log _),
        hadds.trans (.log (.inr (.inl ⟨hne, rfl⟩))), fun _ => rfl, rfl⟩
    · exact (holds_pure _).mpr ⟨hballoc.persists, hadds, fun _ => rfl, rfl⟩
  · rw [if_neg hzero]
    exact (holds_pure _).mpr (.refl _)

theorem bmap_mapped (sb : Superblock) (ip : Inode) (s : Fs) (hbn : bn < MAXFILE) :
    (bmap sb ip bn).Holds s (Mapped sb ip s) fun _ => False := by
  have hmax : MAXFILE = NDIRECT + NINDIRECT := rfl
  rw [bmap]
  by_cases hdirect : bn < NDIRECT
  · rw [if_pos hdirect]
    exact (bmapSlot_mapped sb ip s (Nat.le_of_lt hdirect)).imp fun _ _ h => h.1
  · rw [if_neg hdirect, if_pos (by omega)]
    refine (bmapSlot_mapped sb ip s le_rfl).bind ?_
    rintro ⟨ip1, ind⟩ s1 ⟨hmapped, hind⟩
    dsimp only at hind ⊢
    by_cases hzero : ind = 0
    · rw [if_pos hzero]
      subst hzero
      exact (holds_pure _).mpr hmapped
    · rw [if_neg hzero]
      have hind := hind rfl hzero
      rw [← hind] at hzero hmapped ⊢
      refine (bmapEntry_mapped sb ip1 s1 _ hzero).bind fun addr s2 hentry => ?_
      refine (holds_pure _).mpr ⟨hmapped.persists.trans hentry.persists, ?_, hmapped.indirect,
        hmapped.inum⟩
      refine (hmapped.adds.mono fun c hc => ?_).trans hentry.adds
      -- the block that was returned first is the indirect block
      rcases hc with hbitmap | hind | hind
      · exact .inl hbitmap
      · exact .inr (.inl hind)
      · refine .inr (.inl ⟨?_, hind⟩)
        rw [hind]
        exact hzero

/-! ## `writei` -/

/-- The number of blocks that `len` bytes at `off` reach into. -/
def rounds (off len : Nat) : Nat := if len = 0 then 0 else blocks (off % BSIZE + len)

theorem rounds_step (off : Nat) {n tot : Nat} (h : tot < n) :
    rounds (off + step off n tot) (n - (tot + step off n tot)) + 1 ≤ rounds off (n - tot) := by
  have hbsize : BSIZE = 1024 := rfl
  rw [rounds, rounds, blocks, blocks, step, hbsize, if_neg (Nat.sub_ne_zero_of_lt h)]
  by_cases hlast : n - tot ≤ 1024 - off % 1024
  · rw [Nat.min_eq_left hlast, if_pos (by omega)]
    omega
  · rw [Nat.min_eq_right (by omega), if_neg (by omega)]
    omega

/-- The blocks that a write may log: the bitmap, the indirect block, and those of the data. -/
def WriteLogs (sb : Superblock) (ip : Inode) (addrs : List Nat) (c : Nat) : Prop :=
  IsBitmap sb c ∨ (c ≠ 0 ∧ c = ip.addrs NDIRECT) ∨ c ∈ addrs

theorem writeiLoop_adds (sb : Superblock) (ip : Inode) (s : Fs) (src : List UInt8) {off n tot : Nat}
    (hmax : off + (n - tot) ≤ MAXFILE * BSIZE) :
    (writeiLoop sb ip off n tot src).Holds s (fun r s' =>
      (∃ addrs, addrs.length ≤ rounds off (n - tot) ∧ Adds (WriteLogs sb r.1 addrs) s s') ∧
      (ip.addrs NDIRECT ≠ 0 → r.1.addrs NDIRECT = ip.addrs NDIRECT) ∧ r.1.inum = ip.inum)
      fun _ => False := by
  induction hleft : n - tot using Nat.strong_induction_on generalizing tot off s ip with
  | _ left ih =>
    rw [writeiLoop]
    by_cases hlt : tot < n
    · rw [dif_pos hlt]
      have hbn : off / BSIZE < MAXFILE := Nat.div_lt_of_lt_mul (by rw [Nat.mul_comm]; omega)
      refine (bmap_mapped sb ip s hbn).bind ?_
      rintro ⟨ip1, addr⟩ s1 ⟨-, hadds, hindirect, hinum⟩
      have hpos := step_pos off hlt
      have hround := rounds_step off hlt
      -- what `bmap` logs, seen from an inode that has the same indirect block
      have hfirst : ∀ ip2 : Inode, (ip1.addrs NDIRECT ≠ 0 → ip2.addrs NDIRECT = ip1.addrs NDIRECT) →
          ∀ addrs, Adds (WriteLogs sb ip2 (addr :: addrs)) s s1 := by
        intro ip2 hsame addrs
        refine hadds.mono fun c hc => ?_
        rcases hc with hbitmap | ⟨hne, hind⟩ | haddr
        · exact .inl hbitmap
        · refine .inr (.inl ⟨hne, ?_⟩)
          rw [hsame (by rw [← hind]; exact hne)]
          exact hind
        · exact .inr (.inr (mem_cons.mpr (.inl haddr)))
      have hstop : (∃ addrs, addrs.length ≤ rounds off left ∧ Adds (WriteLogs sb ip1 addrs) s s1) :=
        ⟨[addr], by rw [← hleft, length_singleton]; omega, hfirst ip1 (fun _ => rfl) []⟩
      dsimp only
      by_cases haddr : addr = 0
      · rw [if_pos haddr]
        exact (holds_pure _).mpr ⟨hstop, hindirect, hinum⟩
      · rw [if_neg haddr, modify, holds_bind, holds_update]
        by_cases hfault : src.length < tot + step off n tot
        · rw [if_pos hfault]
          exact (holds_pure _).mpr ⟨hstop, hindirect, hinum⟩
        · rw [if_neg hfault, logWrite, holds_bind, holds_update]
          refine (ih (n - (tot + step off n tot)) (by omega) ip1 _ ?_ rfl).imp ?_
          · have hfits := step_le off (Nat.le_of_lt hlt)
            omega
          rintro r s' ⟨⟨addrs, hlen, hrest⟩, hindirect', hinum'⟩
          refine ⟨⟨addr :: addrs, ?_, ?_⟩, fun hne => ?_, hinum'.trans hinum⟩
          · rw [length_cons, ← hleft]
            exact Nat.le_trans (Nat.succ_le_succ hlen) hround
          · refine (hfirst r.1 hindirect' addrs).trans (Adds.trans (.log ?_)
              (hrest.mono fun c hc => hc.imp_right (.imp_right (mem_cons_of_mem addr))))
            exact .inr (.inr mem_cons_self)
          · have hind := hindirect hne
            rw [hindirect' (by rw [hind]; exact hne), hind]
    · rw [dif_neg hlt]
      exact (holds_pure _).mpr ⟨⟨[], Nat.zero_le _, .refl _ s⟩, fun _ => rfl, rfl⟩

theorem writeiEnd_log (sb : Superblock) (ip : Inode) (off : Nat) (s : Fs) :
    (writeiEnd sb ip off).Holds s (fun _ s' => ∃ block,
      s' = ⟨Function.update s.disk (sb.iblock ip.inum) block, sb.iblock ip.inum :: s.logged⟩)
      fun _ => False := by
  have hinum : (if ip.size < off then { ip with size := off } else ip : Inode).inum = ip.inum := by
    split <;> rfl
  rw [writeiEnd]
  simp only [iupdate, modify, logWrite, holds_bind, holds_update, holds_pure, hinum]
  exact ⟨_, rfl⟩

/-- One `writei` of at most three blocks logs at most seven different ones. -/
theorem writei_adds (sb : Superblock) (hsize : sb.size ≤ BPB) (ip : Inode) (src : List UInt8)
    (s : Fs) {off n : Nat} (hoff : off < U32) (hn : n ≤ 3 * BSIZE) :
    (writei sb ip src off n).Holds s (fun _ s' => ∃ blocks : List Nat, blocks.length ≤ 7 ∧
      Adds (· ∈ blocks) s s') fun _ => False := by
  have hbsize : BSIZE = 1024 := rfl
  have hu32 : U32 = 2 ^ 32 := rfl
  rw [writei]
  by_cases hrefused : ip.size < off ∨ (off + n) % U32 < off
  · rw [if_pos hrefused]
    exact (holds_pure _).mpr ⟨[], Nat.zero_le _, .refl _ s⟩
  rw [if_neg hrefused]
  by_cases hlarge : MAXFILE * BSIZE < (off + n) % U32
  · rw [if_pos hlarge]
    exact (holds_pure _).mpr ⟨[], Nat.zero_le _, .refl _ s⟩
  rw [if_neg hlarge]
  have hmax : off + n ≤ MAXFILE * BSIZE := by
    have hmaxfile : MAXFILE * BSIZE < 2 ^ 31 := by decide
    rw [hu32] at hoff hrefused hlarge
    rw [hbsize] at hn hlarge ⊢
    omega
  refine (writeiLoop_adds sb ip s src (by omega)).bind ?_
  rintro ⟨ip1, off1, tot⟩ s1 ⟨⟨addrs, hlen, hadds⟩, -, -⟩
  have hrounds : rounds off n ≤ 4 := by
    rw [rounds, blocks]
    rw [hbsize] at hn ⊢
    split <;> omega
  have hbitmap : ∀ c, IsBitmap sb c → c = sb.bmapstart := by
    rintro _ ⟨c, hc, rfl⟩
    rw [Superblock.bblock, Nat.div_eq_of_lt (by omega), Nat.zero_add]
  refine (writeiEnd_log sb ip1 off1 s1).bind ?_
  rintro ip' s' ⟨block, rfl⟩
  refine (holds_pure _).mpr
    ⟨sb.iblock ip1.inum :: sb.bmapstart :: ip1.addrs NDIRECT :: addrs, ?_, ?_⟩
  · rw [Nat.sub_zero] at hlen
    simp only [length_cons]
    omega
  · refine (hadds.mono fun c hc => ?_).trans (.log mem_cons_self)
    refine mem_cons_of_mem _ ?_
    rcases hc with hc | ⟨-, hc⟩ | hc
    · rw [hbitmap c hc]
      exact mem_cons_self
    · dsimp only at hc
      rw [hc]
      exact mem_cons_of_mem _ mem_cons_self
    · exact mem_cons_of_mem _ (mem_cons_of_mem _ hc)

end Fs

end EAFITos
