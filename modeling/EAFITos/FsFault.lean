/-
A write whose source cannot be read to its end.  `either_copyin` has put the readable bytes of the
failing piece into the buffer, which is released without a call of `log_write`.
-/
import EAFITos.FsLogged

namespace EAFITos

open Holdings Function List Prog

namespace Fs

variable {sb : Superblock} {s s' : Fs} {ip ip' : Inode} {src : List UInt8} {off n tot : Nat}
  {heads : Nat → Nat → Nat} {nb : Nat → Nat} {full : Nat → List UInt8}

variable {x m k : Nat}

/-! ## The failing piece goes to a new block, or there is none -/

/-- A buffer is changed that is in the log already. -/
theorem Persists.modify {b : Nat} (h : Persists s s') (hb : b ∈ s'.logged) (block : Block) :
    Persists s { s' with disk := update s'.disk b block } where
  changed := fun c hne => by
    by_cases hc : c = b
    · rw [hc]
      exact hb
    · dsimp only at hne
      rw [update_of_ne hc] at hne
      exact h.changed c hne
  before := h.before

/-- The index of the block in which the readable bytes end. -/
theorem div_of_fault (h : src.length < tot + step off n tot) (hsrc : tot ≤ src.length) :
    (off + (src.length - tot)) / BSIZE = off / BSIZE := by
  have hfits := step_fits off n tot
  have hbsize : BSIZE = 1024 := rfl
  rw [hbsize] at hfits ⊢
  omega

section

variable (hlt : src.length < n) (h : tot + step off n tot ≤ src.length)
include hlt h

/-- A piece before the fault ends at the end of its block. -/
theorem step_mod : (off + step off n tot) % BSIZE = 0 := by
  have hbsize : BSIZE = 1024 := rfl
  rw [step, hbsize] at h ⊢
  omega

theorem div_of_step : off / BSIZE + 1 ≤ (off + (src.length - tot)) / BSIZE := by
  have hbsize : BSIZE = 1024 := rfl
  rw [step, hbsize] at h
  rw [hbsize]
  omega

end

theorem writeiLoop_persists (hwf : sb.Wf) (h : Volume sb s.disk heads nb full)
    (hip : ip.addrs = heads ip.inum) (hoff : off ≤ (full ip.inum).length)
    (hmax : off + (n - tot) ≤ MAXFILE * BSIZE) (htot : tot ≤ n) (hsrc : tot ≤ src.length)
    (hnew : n ≤ src.length ∨ nb ip.inum ≤ (off + (src.length - tot)) / BSIZE) :
    (writeiLoop sb ip off n tot src).Holds s (fun _ s' => Persists s s') fun _ => False := by
  induction hleft : n - tot using Nat.strong_induction_on
    generalizing tot off s ip heads nb full with
  | _ left ih =>
    rw [writeiLoop]
    by_cases hlt : tot < n
    · rw [dif_pos hlt]
      have hlen := (h.filed.files ip.inum).length
      have hbn : off / BSIZE ≤ nb ip.inum := Nat.div_le_of_le_mul (by rw [mul_comm]; omega)
      have hbnmax : off / BSIZE < MAXFILE := Nat.div_lt_of_lt_mul (by rw [mul_comm]; omega)
      refine (((bmap_spec hwf h hip hbn hbnmax).and (bmap_mapped sb ip s hbnmax)).mono
        (fun _ _ h => h) fun _ h => h.1).bind ?_
      rintro ⟨ip1, addr⟩ s1 ⟨hbmap, hmapped⟩
      have hpersists := hmapped.persists
      rcases hbmap.cases h hip with ⟨haddr, -, -, -⟩ | ⟨haddr, hslot, hlogged, hgrown⟩
      · dsimp only at haddr ⊢
        rw [if_pos haddr]
        exact (holds_pure _).mpr hpersists
      · dsimp only at haddr hslot hlogged hgrown ⊢
        subst hslot
        rw [if_neg haddr, modify, holds_bind, holds_update]
        have hstep := step_le off htot
        have hpos := step_pos off hlt
        have hfits := step_fits off n tot
        by_cases hfault : src.length < tot + step off n tot
        · rw [if_pos hfault]
          have hnb := hnew.resolve_left (by omega)
          rw [div_of_fault hfault hsrc] at hnb
          exact (holds_pure _).mpr (hpersists.modify (hlogged hnb) _)
        · rw [if_neg hfault, logWrite, holds_bind, holds_update]
          have hinum : ip1.inum = ip.inum := by rw [hgrown.same]
          have hchunk : ((src.drop tot).take (step off n tot)).length = step off n tot := by
            rw [length_take, length_drop]
            omega
          have hwrite := grown_write ((src.drop tot).take (step off n tot)) hwf hgrown hoff
            (by omega) (by omega)
          refine (ih (n - (tot + step off n tot)) (by omega) (hwrite _).volume ?_ ?_ (by omega)
            hstep (by omega) ?_ rfl).imp fun _ _ hrest => (hpersists.trans (.log _)).trans hrest
          · rw [hinum, update_self]
          · rw [hinum, update_self, length_splice hoff, hchunk]
            omega
          · by_cases hall : n ≤ src.length
            · exact .inl hall
            · have hnext := div_of_step (not_le.mp hall) (not_lt.mp hfault)
              have hindex : off + step off n tot + (src.length - (tot + step off n tot)) =
                  off + (src.length - tot) := by omega
              rw [hinum, update_self, hindex]
              exact .inr (by omega)
    · rw [dif_neg hlt]
      exact (holds_pure _).mpr (.refl s)

/-! ## The failing piece goes to a block that the file has -/

/-- The bytes `rest` have been put into the block `bn`, which has not been logged. -/
structure Faulted (sb : Superblock) (s : Fs) (addrs : Nat → Nat) (bn x : Nat) (rest : List UInt8)
    (s' : Fs) : Prop where
  block : s'.disk (slot s.disk addrs bn) = (s.disk (slot s.disk addrs bn)).storeBytes x rest
  adds : Adds (fun b => b < sb.bmapstart ∨ ∃ bn', bn' < bn ∧ b = slot s.disk addrs bn') s s'
  changed : ∀ b, b ≠ slot s.disk addrs bn → s'.disk b ≠ s.disk b → b ∈ s'.logged

theorem writeiLoop_faulted (sb : Superblock) {used : Nat → Prop}
    (h : Filed s.disk heads used nb full) (hip : ip.addrs = heads ip.inum)
    (hoff : off ≤ (full ip.inum).length) (hlt : src.length < n) (hsrc : tot ≤ src.length)
    (hbn : (off + (src.length - tot)) / BSIZE < nb ip.inum) :
    (writeiLoop sb ip off n tot src).Holds s (fun r s' => r.1 = ip ∧
      Faulted sb s ip.addrs ((off + (src.length - tot)) / BSIZE) ((off + (r.2.2 - tot)) % BSIZE)
        (src.drop r.2.2) s' ∧ tot ≤ r.2.2 ∧ r.2.2 ≤ src.length ∧
      (r.2.2 = tot ∨ (off + (r.2.2 - tot)) % BSIZE = 0)) fun _ => False := by
  induction hleft : n - tot using Nat.strong_induction_on generalizing tot off s full with
  | _ left ih =>
    have htot : tot < n := by omega
    have hle : off / BSIZE ≤ (off + (src.length - tot)) / BSIZE :=
      Nat.div_le_div_right (Nat.le_add_right _ _)
    have hslot : slot s.disk ip.addrs (off / BSIZE) ≠ 0 := by
      rw [hip]
      exact h.slot_ne_zero.mpr (by omega)
    rw [writeiLoop, dif_pos htot, holds_bind]
    refine bmap_slot sb hslot ?_
    dsimp only
    rw [if_neg hslot, modify, holds_bind, holds_update]
    by_cases hfault : src.length < tot + step off n tot
    · rw [if_pos hfault, div_of_fault hfault hsrc]
      refine (holds_pure _).mpr ⟨rfl, ⟨?_, .refl _ _, fun b hb hne => ?_⟩, le_refl _, hsrc,
        .inl rfl⟩
      · dsimp only
        rw [update_self, Nat.sub_self, Nat.add_zero, take_of_length_le (by rw [length_drop]; omega)]
      · exact absurd (update_of_ne hb _ _) hne
    · rw [if_neg hfault, logWrite, holds_bind, holds_update]
      have hpos := step_pos off htot
      have hfits := step_fits off n tot
      have hnext := div_of_step hlt (not_lt.mp hfault)
      have hindex : off + step off n tot + (src.length - (tot + step off n tot)) =
          off + (src.length - tot) := by omega
      have hchunk : ((src.drop tot).take (step off n tot)).length = step off n tot := by
        rw [length_take, length_drop]
        omega
      have hbn' : off / BSIZE < nb ip.inum := by omega
      have hrefs := h.refs_setData hbn' ((s.disk (slot s.disk (heads ip.inum) (off / BSIZE))).storeBytes
        (off % BSIZE) ((src.drop tot).take (step off n tot)))
      have hfit : off % BSIZE + ((src.drop tot).take (step off n tot)).length ≤ BSIZE := by omega
      have hwrite := h.write hoff hbn' hfit
      rw [← hip] at hrefs hwrite
      generalize hdisk : update s.disk (slot s.disk ip.addrs (off / BSIZE)) _ = disk1
        at hrefs hwrite ⊢
      have hslots : ∀ bn, slot disk1 ip.addrs bn = slot s.disk ip.addrs bn := by
        intro bn
        rw [hip]
        exact congrFun hrefs (ip.inum, .ofIndex bn)
      refine (ih (n - (tot + step off n tot)) (by omega) hwrite ?_ (by omega) ?_ rfl).imp ?_
      · rw [update_self, length_splice hoff, hchunk]
        omega
      · rw [hindex]
        exact hbn
      rintro r s' ⟨hr, ⟨hblock, hadds, hchanged⟩, htot', hsrc', haligned⟩
      simp only [hslots, hindex] at hblock hadds hchanged
      have hother : slot s.disk ip.addrs ((off + (src.length - tot)) / BSIZE) ≠
          slot s.disk ip.addrs (off / BSIZE) := by
        rw [hip]
        refine h.exact.ne (x := (ip.inum, .ofIndex (off / BSIZE)))
          (y := (ip.inum, .ofIndex ((off + (src.length - tot)) / BSIZE)))
          (h.slot_ne_zero.mpr hbn') fun heq => ?_
        have hindices := Place.ofIndex_inj (Prod.mk.inj heq).2
        omega
      have hpos' : off + step off n tot + (r.2.2 - (tot + step off n tot)) =
          off + (r.2.2 - tot) := by omega
      rw [hpos'] at hblock haligned
      refine ⟨hr, ⟨?_, ?_, fun b hb hne => ?_⟩, by omega, hsrc', .inr ?_⟩
      · rw [hblock, ← hdisk, update_of_ne hother]
      · exact Adds.trans (.log (.inr ⟨off / BSIZE, by omega, rfl⟩)) hadds
      · by_cases heq : s'.disk b = disk1 b
        · obtain ⟨new, hlogged, -⟩ := hadds
          rw [hlogged]
          refine mem_append_right new (mem_cons.mpr (.inl ?_))
          by_contra hb'
          rw [heq, ← hdisk, update_of_ne hb'] at hne
          exact hne rfl
        · exact hchanged b hb heq
      · rcases haligned with heq | haligned
        · rw [heq, Nat.add_sub_cancel_left]
          exact step_mod hlt (not_lt.mp hfault)
        · exact haligned

/-! ## `writei` -/

variable {home : Disk}

section

variable (hinv : FsInv sb s.disk nb full) (hloaded : Loaded sb s.disk ip) (hoff : off ≤ ip.size)
include hinv hloaded hoff

theorem writei_persists (hmax : off + n ≤ MAXFILE * BSIZE)
    (hnew : n ≤ src.length ∨ nb ip.inum ≤ (off + src.length) / BSIZE) :
    (writei sb ip src off n).Holds s (fun _ s' => Persists s s') fun _ => False := by
  have hmaxfile : MAXFILE * BSIZE < 2 ^ 31 := by decide
  have hu32 : U32 = 2 ^ 32 := rfl
  have hmod : (off + n) % U32 = off + n := Nat.mod_eq_of_lt (by omega)
  have hsize := hinv.sizes _ hloaded.inum
  rw [← hloaded.size] at hsize
  rw [writei, hmod, if_neg (by omega), if_neg (by omega)]
  refine (writeiLoop_persists hinv.wf hinv.volume hloaded.addrs (by omega) (by omega)
    (Nat.zero_le _) (Nat.zero_le _) hnew).bind ?_
  rintro ⟨ip1, off1, tot⟩ s1 hpersists
  refine (writeiEnd_log sb ip1 off1 s1).bind ?_
  rintro ip' s' ⟨block, rfl⟩
  exact (holds_pure _).mpr (hpersists.trans (.log block))

theorem writei_faulted (hmax : off + n ≤ MAXFILE * BSIZE) (hlt : src.length < n)
    (hbn : (off + src.length) / BSIZE < nb ip.inum) :
    (writei sb ip src off n).Holds s (fun r s' => ∃ tot : Nat, r.2 = tot ∧
      Faulted sb s ip.addrs ((off + src.length) / BSIZE) ((off + tot) % BSIZE) (src.drop tot) s' ∧
      (tot = 0 ∨ (off + tot) % BSIZE = 0)) fun _ => False := by
  have hmaxfile : MAXFILE * BSIZE < 2 ^ 31 := by decide
  have hu32 : U32 = 2 ^ 32 := rfl
  have hmod : (off + n) % U32 = off + n := Nat.mod_eq_of_lt (by omega)
  have hsize := hinv.sizes _ hloaded.inum
  rw [← hloaded.size] at hsize
  rw [writei, hmod, if_neg (by omega), if_neg (by omega)]
  refine (writeiLoop_faulted sb hinv.volume.filed hloaded.addrs (by omega) hlt (Nat.zero_le _)
    hbn).bind ?_
  rintro ⟨ip1, off1, tot⟩ s1 ⟨hip1, ⟨hblock, hadds, hchanged⟩, -, htot, haligned⟩
  dsimp only at hip1 hblock htot ⊢
  subst hip1
  refine (writeiEnd_log sb ip1 off1 s1).bind ?_
  rintro ip' s' ⟨block, rfl⟩
  refine (holds_pure _).mpr ⟨tot, int32_of_lt (by omega), ⟨?_, ?_, fun b hb hne => ?_⟩, haligned⟩
  · have hused := (hinv.volume.filed.slot_used hbn).1
    rw [← hloaded.addrs] at hused
    have hinode := hinv.wf.inodes _ hloaded.inum
    have hstart := hinv.wf.start
    dsimp only
    rw [update_of_ne (by omega)]
    exact hblock
  · exact hadds.trans (.log (.inl (hinv.wf.inodes _ hloaded.inum)))
  · refine mem_cons.mpr (or_iff_not_imp_left.mpr fun hb' => hchanged b hb ?_)
    dsimp only at hne
    rwa [update_of_ne hb'] at hne

end

/-! ## What the caller is told -/

/-- The cached blocks that differ from those on the disk are in the log. -/
def Clean (home : Disk) (s : Fs) : Prop := ∀ b, s.disk b ≠ home b → b ∈ s.logged

/-- `readi` returns the same byte at `x` before and after. -/
def SameByte (sb : Superblock) (s : Fs) (ip : Inode) (s' : Fs) (ip' : Inode) (x : Nat) : Prop :=
  ∃ v, readi sb ip x 1 1 s = .ok (ip, 1, [v]) s ∧ readi sb ip' x 1 1 s' = .ok (ip', 1, [v]) s'

/-- A write at `off` that returned `r` has changed only what it reports. -/
structure Reports (sb : Superblock) (home : Disk) (s : Fs) (ip : Inode) (off : Nat) (ip' : Inode)
    (r : Int) (s' : Fs) : Prop where
  bytes : ∀ x, x < ip.size → ¬ (off ≤ x ∧ (x : Int) < off + r) → SameByte sb s ip s' ip' x
  others : ∀ ip2, Loaded sb s.disk ip2 → ip2.inum ≠ ip.inum →
    ∀ x, x < ip2.size → SameByte sb s ip2 s' ip2 x
  clean : Clean home s'

/-- The write is refused, or its source can be read, or what is copied before the fault does no harm:
the block in which the readable bytes end is not there yet, or it has these bytes already, or they lie
behind the end of the file in a block that is in the log. -/
def Harmless (s : Fs) (ip : Inode) (src : List UInt8) (off n : Nat) : Prop :=
  ip.size < off ∨ MAXFILE * BSIZE < off + n ∨ n ≤ src.length ∨
  ∀ j, j < src.length → (off + j) / BSIZE = (off + src.length) / BSIZE →
    slot s.disk ip.addrs ((off + j) / BSIZE) = 0 ∨
    s.disk (slot s.disk ip.addrs ((off + j) / BSIZE)) ((off + j) % BSIZE) = src.getD j 0 ∨
    (ip.size ≤ off + j ∧ slot s.disk ip.addrs ((off + j) / BSIZE) ∈ s.logged)

theorem readi_byte (hok : FsOk sb s.disk) (hloaded : Loaded sb s.disk ip) (hx : x < ip.size) :
    readi sb ip x 1 1 s = .ok (ip, 1, [(s.disk.bytes ip.toDinode).getD x 0]) s := by
  have hsize : ip.size ≤ MAXFILE * BSIZE := by
    obtain ⟨nb, full, hinv⟩ := hok
    rw [hloaded.size]
    exact hinv.size_le hloaded.inum
  have hmax : MAXFILE * BSIZE < 2 ^ 31 := by decide
  have hu32 : U32 = 2 ^ 32 := rfl
  have hlen := Disk.length_bytes s.disk ip.toDinode
  have hread := reads hok hloaded x 1 1 (by omega) (by omega) le_rfl
  have hbyte : readBytes (s.disk.bytes ip.toDinode) x 1 =
      [(s.disk.bytes ip.toDinode).getD x 0] := by
    rw [readBytes, if_pos (by omega), drop_eq_getElem_cons (by omega), take_succ_cons,
      take_zero, getD_eq_getElem _ _ (by omega)]
  rw [hread, hbyte]
  rfl

theorem sameByte_iff (hok : FsOk sb s.disk) (hloaded : Loaded sb s.disk ip)
    (hok' : FsOk sb s'.disk) (hloaded' : Loaded sb s'.disk ip') (hx : x < ip.size)
    (hx' : x < ip'.size) : SameByte sb s ip s' ip' x ↔
      (s'.disk.bytes ip'.toDinode).getD x 0 = (s.disk.bytes ip.toDinode).getD x 0 := by
  rw [SameByte, readi_byte hok hloaded hx, readi_byte hok' hloaded' hx']
  constructor
  · rintro ⟨v, hv, hv'⟩
    injection hv with hv
    injection hv' with hv'
    simp only [Prod.mk.injEq, cons.injEq, and_true, true_and] at hv hv'
    rw [hv, hv']
  · intro heq
    rw [heq]
    exact ⟨_, rfl, rfl⟩

/-- A byte of the file after the write. -/
theorem Written.getD (h : Written sb s ip src off n m ip' tot k s') (hoff : off ≤ ip.size)
    (hx : x < ip.size) :
    (s'.disk.bytes ip'.toDinode).getD x 0 = if off ≤ x ∧ x < off + k then src.getD (x - off) 0
      else (s.disk.bytes ip.toDinode).getD x 0 := by
  have hlen : (src.take k).length = k := by
    rw [length_take, min_eq_left h.le.2.1]
  rw [h.bytes, getD_take (by omega), getD_splice (by rw [Disk.length_bytes]; exact hoff), hlen]
  split
  · rw [getD_take (by omega)]
  · rfl

theorem Written.others_same (hok : FsOk sb s.disk) (h : Written sb s ip src off n m ip' tot k s')
    {ip2 : Inode} (hloaded : Loaded sb s.disk ip2) (hne : ip2.inum ≠ ip.inum) (hx : x < ip2.size) :
    SameByte sb s ip2 s' ip2 x := by
  obtain ⟨hinode, hbytes⟩ := h.others ip2.inum hloaded.inum hne
  have hloaded' : Loaded sb s'.disk ip2 := ⟨hloaded.inum, by rw [hinode]; exact hloaded.inode⟩
  rw [← hloaded.inode] at hbytes
  rw [sameByte_iff hok hloaded h.ok hloaded' hx hx, hbytes]

theorem Persists.clean (h : Persists s s') (hclean : Clean home s) : Clean home s' := by
  intro b hne
  by_cases heq : s'.disk b = s.disk b
  · rw [heq] at hne
    exact h.before b (hclean b hne)
  · exact h.changed b heq

theorem Disk.getD_bytes (disk : Disk) (d : Dinode) (hx : x < d.size) :
    (disk.bytes d).getD x 0 = disk (slot disk d.addrs (x / BSIZE)) (x % BSIZE) := by
  rw [Disk.bytes, getD_eq_getElem?_getD, getElem?_map, getElem?_range hx]
  rfl

section

variable (hinv : FsInv sb s.disk nb full) (hloaded : Loaded sb s.disk ip)
include hinv hloaded

/-- The write stops in a block that the file has. -/
theorem reports_iff_of_faulted (hclean : Clean home s) (hoff : off ≤ ip.size)
    (hmax : off + n ≤ MAXFILE * BSIZE) (hlt : src.length < n)
    (hbn : (off + src.length) / BSIZE < nb ip.inum)
    (hwritten : Written sb s ip src off n m ip' tot src.length s')
    (hstop : src.length < tot + step (off + tot) n tot)
    (hfaulted : Faulted sb s ip.addrs ((off + src.length) / BSIZE) ((off + tot) % BSIZE)
      (src.drop tot) s') (haligned : tot = 0 ∨ (off + tot) % BSIZE = 0) :
    Reports sb home s ip off ip' tot s' ↔ Harmless s ip src off n := by
  have hok : FsOk sb s.disk := ⟨_, _, hinv⟩
  have hle := hwritten.le.1
  have hdiv := div_of_fault hstop hle
  have hslot : slot s.disk ip.addrs ((off + src.length) / BSIZE) ≠ 0 := by
    rw [hloaded.addrs]
    exact hinv.volume.filed.slot_ne_zero.mpr hbn
  have hbsize : BSIZE = 1024 := rfl
  -- the bytes from `tot` on are those of the failing piece
  have hpiece : ∀ j, j < src.length →
      ((off + j) / BSIZE = (off + src.length) / BSIZE ↔ tot ≤ j) := by
    intro j hj
    rw [hbsize] at hdiv haligned ⊢
    omega
  have hplace : ∀ j, tot ≤ j → j < src.length →
      (off + j) % BSIZE = (off + tot) % BSIZE + (j - tot) := by
    intro j hj hj'
    have hindex := (hpiece j hj').mpr hj
    rw [hbsize] at hdiv hindex ⊢
    omega
  constructor
  · intro hreports
    refine .inr (.inr (.inr fun j hj hindex => .inr ?_))
    have htot := (hpiece j hj).mp hindex
    by_cases hx : off + j < ip.size
    · have hx' : off + j < ip'.size := by
        have hsize := hwritten.size
        omega
      have hsame := (sameByte_iff hok hloaded hwritten.ok hwritten.loaded hx hx').mp
        (hreports.bytes (off + j) hx (by omega))
      rw [hwritten.getD hoff hx, if_pos (by omega), Nat.add_sub_cancel_left,
        Disk.getD_bytes _ _ hx] at hsame
      exact .inl hsame.symm
    · rw [hindex]
      refine or_iff_not_imp_left.mpr fun hne => ⟨not_lt.mp hx, ?_⟩
      by_contra hnot
      have hhome := not_not.mp (mt (hclean _) hnot)
      have hmem := hreports.clean (slot s.disk ip.addrs ((off + src.length) / BSIZE)) (by
        rw [← hhome, hfaulted.block]
        intro heq
        have hbyte := congrFun heq ((off + j) % BSIZE)
        rw [ByteMem.storeBytes_apply, hplace j htot hj, length_drop, if_pos (by omega),
          Nat.add_sub_cancel_left, getD_drop, Nat.add_sub_cancel' htot] at hbyte
        rw [hplace j htot hj] at hne
        exact hne hbyte.symm)
      obtain ⟨new, hlogged, hnew⟩ := hfaulted.adds
      rw [hlogged] at hmem
      rcases mem_append.mp hmem with hmem | hmem
      · rcases hnew _ hmem with hinode | ⟨bn', hbn', heq⟩
        · have hused := (hinv.volume.filed.slot_used hbn).1
          have hstart := hinv.wf.start
          rw [← hloaded.addrs] at hused
          omega
        · rw [hloaded.addrs] at heq
          refine hinv.volume.filed.exact.ne (x := (ip.inum, .ofIndex bn'))
            (y := (ip.inum, .ofIndex ((off + src.length) / BSIZE)))
            (hinv.volume.filed.slot_ne_zero.mpr (lt_trans hbn' hbn)) (fun hplace => ?_) heq
          have hindices := Place.ofIndex_inj (Prod.mk.inj hplace).2
          omega
      · exact hnot hmem
  · intro hharmless
    have hall := ((hharmless.resolve_left (by omega)).resolve_left (by omega)).resolve_left (by omega)
    have hbytes : ∀ j, tot ≤ j → j < src.length →
        s.disk (slot s.disk ip.addrs ((off + j) / BSIZE)) ((off + j) % BSIZE) = src.getD j 0 ∨
        (ip.size ≤ off + j ∧ slot s.disk ip.addrs ((off + src.length) / BSIZE) ∈ s.logged) := by
      intro j hj hj'
      have hindex := (hpiece j hj').mpr hj
      have hcases := hall j hj' hindex
      rw [hindex] at hcases ⊢
      exact hcases.resolve_left hslot
    refine ⟨fun x hx houtside => ?_, fun ip2 hloaded2 hne x hx =>
      hwritten.others_same hok hloaded2 hne hx, fun b hne => ?_⟩
    · have hx' : x < ip'.size := by
        have hsize := hwritten.size
        omega
      rw [sameByte_iff hok hloaded hwritten.ok hwritten.loaded hx hx', hwritten.getD hoff hx]
      split
      · next hrange =>
        have hindex : off + (x - off) = x := by omega
        have hcases := hbytes (x - off) (by omega) (by omega)
        rw [hindex] at hcases
        rw [Disk.getD_bytes _ _ hx]
        exact (hcases.resolve_right (by omega)).symm
      · rfl
    · obtain ⟨new, hlogged, -⟩ := hfaulted.adds
      have hbefore : ∀ c, c ∈ s.logged → c ∈ s'.logged := by
        intro c hc
        rw [hlogged]
        exact mem_append_right new hc
      by_cases hsame : s'.disk b = s.disk b
      · rw [hsame] at hne
        exact hbefore b (hclean b hne)
      · by_cases hb : b = slot s.disk ip.addrs ((off + src.length) / BSIZE)
        · -- the copied bytes are in the block already, or the block is in the log
          refine hbefore b ?_
          by_contra hnot
          refine hsame ?_
          rw [hb] at hnot ⊢
          rw [hfaulted.block]
          funext y
          rw [ByteMem.storeBytes_apply, length_drop]
          split
          · next hrange =>
            have hj : tot + (y - (off + tot) % BSIZE) < src.length := by omega
            have hcases := hbytes _ (Nat.le_add_right tot _) hj
            have hindex := (hpiece _ hj).mpr (Nat.le_add_right tot _)
            have hpos := hplace _ (Nat.le_add_right tot _) hj
            rw [hindex, hpos, Nat.add_sub_cancel_left, Nat.add_sub_cancel' hrange.1] at hcases
            rw [getD_drop]
            exact (hcases.resolve_right fun h => hnot h.2).symm
          · rfl
        · exact hfaulted.changed b hb hsame

/-- The write ends without a fault, or in a block that is new. -/
theorem reports_of_new (hclean : Clean home s) (hoff : off ≤ ip.size)
    (hnew : n ≤ src.length ∨ nb ip.inum ≤ (off + src.length) / BSIZE)
    (hwritten : Written sb s ip src off n m ip' tot k s') (hpersists : Persists s s') :
    Reports sb home s ip off ip' tot s' where
  bytes := fun x hx houtside => by
    have hok : FsOk sb s.disk := ⟨_, _, hinv⟩
    have hx' : x < ip'.size := by
      have hsize := hwritten.size
      omega
    rw [sameByte_iff hok hloaded hwritten.ok hwritten.loaded hx hx', hwritten.getD hoff hx, if_neg]
    rintro ⟨hlo, hhi⟩
    have hle := hwritten.le.2.2
    cases hwritten.stop with
    | all heq => omega
    | noBlock _ _ _ => omega
    | fault hstop =>
      -- a byte of the file has its block already
      have hstep := step_le (off + tot) hle
      have hnb := hnew.resolve_left (by omega)
      have hdiv := div_of_fault hstop hwritten.le.1
      rw [add_assoc, Nat.add_sub_cancel' hwritten.le.1] at hdiv
      have hsize := hinv.sizes _ hloaded.inum
      have hlen := (hinv.stored hloaded.inum).length
      rw [← hloaded.size] at hsize
      have hbsize : BSIZE = 1024 := rfl
      rw [hbsize] at hdiv hnb hlen
      omega
  others := fun _ hloaded2 hne _ hx => hwritten.others_same ⟨_, _, hinv⟩ hloaded2 hne hx
  clean := hpersists.clean hclean

theorem harmless_of_new (hnew : n ≤ src.length ∨ nb ip.inum ≤ (off + src.length) / BSIZE) :
    Harmless s ip src off n := by
  rcases hnew with hall | hnb
  · exact .inr (.inr (.inl hall))
  · refine .inr (.inr (.inr fun j _ hindex => .inl ?_))
    rw [hindex, hloaded.addrs]
    exact not_not.mp (mt hinv.volume.filed.slot_ne_zero.mp (not_lt.mpr hnb))

end

/-- **When a faulting write changes only what it reports.**  On a well-formed file system `writei`
returns, and the bytes of the files outside of those that it reports are the same and every changed
block is in the log exactly if the readable bytes of the failing piece do no harm. -/
theorem write_reports_iff_harmless (hok : FsOk sb s.disk) (hloaded : Loaded sb s.disk ip)
    (hclean : Clean home s) (src : List UInt8) (hoff : off < U32) (hn : n < U32) :
    ∃ ip' r s', writei sb ip src off n s = .ok (ip', r) s' ∧
      (Reports sb home s ip off ip' r s' ↔ Harmless s ip src off n) := by
  by_cases hrefused : ip.size < off ∨ MAXFILE * BSIZE < off + n
  · refine ⟨ip, -1, s, writei_refused sb src s hoff hn hrefused, iff_of_true ?_ ?_⟩
    · have hsame : ∀ ip2 x, Loaded sb s.disk ip2 → x < ip2.size → SameByte sb s ip2 s ip2 x :=
        fun ip2 x hloaded2 hx => (sameByte_iff hok hloaded2 hok hloaded2 hx hx).mpr rfl
      exact ⟨fun x hx _ => hsame ip x hloaded hx, fun ip2 hloaded2 _ x hx => hsame ip2 x hloaded2 hx,
        hclean⟩
    · exact hrefused.imp_right .inl
  obtain ⟨hoff', hmax⟩ := not_or.mp hrefused
  rw [not_lt] at hoff' hmax
  obtain ⟨nb, full, hinv⟩ := hok
  have hspec := writei_spec src hinv hloaded hoff' hmax
  by_cases hnew : n ≤ src.length ∨ nb ip.inum ≤ (off + src.length) / BSIZE
  · obtain ⟨⟨ip', r⟩, s', hrun, tot, k, hr, hwritten⟩ := hspec.exists_ok
    have hpersists := (writei_persists hinv hloaded hoff' hmax hnew).of_ok hrun
    subst hr
    exact ⟨ip', tot, s', hrun, iff_of_true
      (reports_of_new hinv hloaded hclean hoff' hnew hwritten hpersists)
      (harmless_of_new hinv hloaded hnew)⟩
  · obtain ⟨hlt, hbn⟩ := not_or.mp hnew
    rw [not_le] at hlt hbn
    obtain ⟨⟨ip', r⟩, s', hrun, tot, k, hr, hwritten⟩ := hspec.exists_ok
    obtain ⟨tot', hr', hfaulted, haligned⟩ :=
      (writei_faulted hinv hloaded hoff' hmax hlt hbn).of_ok hrun
    subst hr
    have heq := Int.ofNat.inj hr'
    subst heq
    have hfault : k = src.length ∧ src.length < tot + step (off + tot) n tot := by
      have hle := hwritten.le
      cases hwritten.stop with
      | all heq => omega
      | noBlock _ _ hnb =>
        have hdiv : (off + tot) / BSIZE ≤ (off + src.length) / BSIZE :=
          Nat.div_le_div_right (by omega)
        omega
      | fault hstop => exact ⟨rfl, hstop⟩
    obtain ⟨rfl, hstop⟩ := hfault
    exact ⟨ip', tot, s', hrun, reports_iff_of_faulted hinv hloaded hclean hoff' hmax hlt hbn hwritten
      hstop hfaulted haligned⟩

/-! A file with the bytes 7 and 8 in block 4. -/

/-- Inode 1 has the block, and its bit is set. -/
def oneBlock : Disk := fun b x =>
  if b = 2 then if x = 64 ∨ x = 72 then 2 else if x = 76 then 4 else 0
  else if b = 3 ∧ x = 0 then 31 else 0

def twoBytes : Fs where
  disk := update oneBlock 4 ((oneBlock 4).storeBytes 0 [7, 8])
  logged := []

def twoBytesInode : Inode := ⟨twoBytes.disk.inode smallSb 1, 1⟩

theorem twoBytes_loaded : Loaded smallSb twoBytes.disk twoBytesInode := ⟨by decide, rfl⟩

theorem twoBytes_clean : Clean twoBytes.disk twoBytes := fun _ hne => absurd rfl hne

theorem twoBytes_maps : maps smallSb twoBytes.disk =
    update (fun _ _ => 0) 1 (update (fun _ => 0) 0 4) := by
  have haddrs : ∀ i, i < 16 → ∀ k, k < 13 → (twoBytes.disk.inode smallSb i).addrs k =
      update (fun _ _ => 0) 1 (update (fun _ => 0) 0 4) i k := by
    decide +kernel
  funext i k
  rw [maps]
  split
  · next hi =>
    by_cases hk : k < 13
    · exact haddrs i hi k hk
    · refine ((Block.dinode_fits _ _).last k (not_lt.mp hk)).trans ?_
      by_cases hi1 : i = 1
      · rw [hi1, update_self, update_of_ne (by omega)]
      · rw [update_of_ne hi1]
  · next hi =>
    have hi16 : ¬ i < 16 := hi
    rw [update_of_ne (by omega)]

theorem twoBytes_inv : FsInv smallSb twoBytes.disk (update (fun _ => 0) 1 1)
    (update (fun _ => []) 1 [7, 8]) := by
  have hempty : Filed oneBlock (fun _ _ => 0) (fun _ => False) (fun _ => 0) fun _ => [] :=
    Filed.empty oneBlock fun _ h => h
  have hspare : Spare oneBlock (fun _ => False) 4 := ⟨by decide, fun h => h, fun _ => rfl⟩
  have hgrown := hempty.direct (i := 1) hspare (by decide)
  have hfit : 0 % BSIZE + ([7, 8] : List UInt8).length ≤ BSIZE := by decide
  have hwritten := hgrown.write (i := 1) (Nat.zero_le _) (by decide) hfit
  have hfree : ∀ b, b < 8 → 4 < b → twoBytes.disk.marked smallSb b = false := by decide +kernel
  have hmarked : ∀ b, b < 5 → twoBytes.disk.marked smallSb b = true := by decide +kernel
  refine ⟨smallSb_wf, ⟨?_, fun b hb => hmarked b (Nat.lt_succ_of_lt hb)⟩, ?_⟩
  · rw [twoBytes_maps]
    refine hwritten.congr_used fun c => ?_
    constructor
    · rintro ⟨hlo, hhi, hmark⟩
      refine .inr ?_
      by_contra hne
      have hlo' : 4 ≤ c := hlo
      rw [hfree c hhi (by omega)] at hmark
      cases hmark
    · rintro (hfalse | rfl)
      · exact hfalse.elim
      · exact ⟨by decide, by decide, hmarked 4 (by decide)⟩
  · intro i hi
    have hsizes : ∀ i, i < 16 → (twoBytes.disk.inode smallSb i).size ≤ if i = 1 then 2 else 0 := by
      decide +kernel
    have hsize := hsizes i hi
    by_cases hi1 : i = 1
    · rw [hi1, update_self]
      rw [hi1, if_pos rfl] at hsize
      exact hsize
    · rw [update_of_ne hi1]
      rw [if_neg hi1] at hsize
      exact hsize

/-- The readable byte of the source is the one of the file. -/
theorem write_reports_same_byte : ∃ ip' r s',
    writei smallSb twoBytesInode [7] 0 2 twoBytes = .ok (ip', r) s' ∧
      Reports smallSb twoBytes.disk twoBytes twoBytesInode 0 ip' r s' := by
  obtain ⟨ip', r, s', hrun, hiff⟩ := write_reports_iff_harmless ⟨_, _, twoBytes_inv⟩
    twoBytes_loaded twoBytes_clean [7] (show 0 < U32 by decide) (show 2 < U32 by decide)
  refine ⟨ip', r, s', hrun, hiff.mpr (.inr (.inr (.inr fun j hj _ => .inr (.inl ?_))))⟩
  have hj0 : j = 0 := by
    have hj1 : j < 1 := hj
    omega
  subst hj0
  decide +kernel

/-- The write returns 0, but the first byte of the file is another one, and its block is not in the
log. -/
theorem faulting_write_changes_file : FsOk smallSb twoBytes.disk ∧
    Loaded smallSb twoBytes.disk twoBytesInode ∧ Clean twoBytes.disk twoBytes ∧
    ∃ ip' s', writei smallSb twoBytesInode [9] 0 2 twoBytes = .ok (ip', 0) s' ∧
      readi smallSb twoBytesInode 0 1 1 twoBytes = .ok (twoBytesInode, 1, [7]) twoBytes ∧
      readi smallSb ip' 0 1 1 s' = .ok (ip', 1, [9]) s' ∧ ¬ Clean twoBytes.disk s' := by
  have hok : FsOk smallSb twoBytes.disk := ⟨_, _, twoBytes_inv⟩
  have hsize : twoBytesInode.size = 2 := by decide +kernel
  have hslot : slot twoBytes.disk twoBytesInode.addrs 0 = 4 := by decide +kernel
  have hbyte : (twoBytes.disk.bytes twoBytesInode.toDinode).getD 0 0 = 7 := by decide +kernel
  obtain ⟨⟨ip', r⟩, s', hrun, tot, k, hr, hwritten⟩ := (writei_spec [9] twoBytes_inv
    twoBytes_loaded (Nat.zero_le _) (show 0 + 2 ≤ MAXFILE * BSIZE by decide)).exists_ok
  obtain ⟨tot', hr', hfaulted, haligned⟩ := (writei_faulted twoBytes_inv twoBytes_loaded
    (Nat.zero_le _) (show 0 + 2 ≤ MAXFILE * BSIZE by decide)
    (show ([9] : List UInt8).length < 2 by decide) (by decide)).of_ok hrun
  dsimp only at hr hr' hwritten
  subst hr
  have heq := Int.ofNat.inj hr'
  subst heq
  have hbsize : BSIZE = 1024 := rfl
  obtain ⟨htot, hk, -⟩ := hwritten.le
  have hk' : k ≤ 1 := hk
  have hzero : tot = 0 := by
    rw [hbsize] at haligned
    omega
  subst hzero
  have hone : k = 1 := by
    cases hwritten.stop with
    | all heq => exact absurd heq (by decide)
    | noBlock _ _ hm => exact absurd hm (by decide)
    | fault _ => rfl
  subst hone
  have hsize' : 0 < ip'.size := by
    have hmax := hwritten.size
    omega
  refine ⟨hok, twoBytes_loaded, twoBytes_clean, ip', s', hrun, ?_, ?_, fun hclean => ?_⟩
  · rw [readi_byte hok twoBytes_loaded (by omega), hbyte]
  · rw [readi_byte hwritten.ok hwritten.loaded hsize',
      hwritten.getD (Nat.zero_le _) (by omega), if_pos (by decide)]
    rfl
  · have hblock := hfaulted.block
    rw [show (0 + ([9] : List UInt8).length) / BSIZE = 0 from rfl, hslot] at hblock
    have hmem := hclean 4 (by
      rw [hblock]
      intro heq
      exact absurd (congrFun heq 0) (by decide +kernel))
    obtain ⟨new, hlogged, hnew⟩ := hfaulted.adds
    rw [hlogged] at hmem
    rcases mem_append.mp hmem with hmem | hmem
    · rcases hnew 4 hmem with hlt | ⟨bn', hbn', -⟩
      · exact absurd hlt (by decide)
      · exact absurd hbn' (Nat.not_lt_zero bn')
    · cases hmem

end Fs

end EAFITos
