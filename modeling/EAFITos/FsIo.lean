/-
`readi` and `writei`: a file is a sequence of bytes.  Reading returns a part of it and changes
nothing; writing replaces a part of it, or puts bytes behind it, up to the first byte that cannot be
read or the last block of the disk.
-/
import EAFITos.FsBlocks

namespace EAFITos

open Function List Prog

variable {bytes l : List UInt8} {m : Nat}

variable {x k size m1 : Nat} {l' : List UInt8}

/-! ## Bytes -/

theorem splice_nil {off : Nat} : splice bytes [] off = bytes := by
  rw [splice, append_nil, length_nil, Nat.add_zero, take_append_drop]

theorem ext_getD (hlen : l.length = l'.length) (h : ∀ x, x < l.length → l.getD x 0 = l'.getD x 0) :
    l = l' := by
  refine ext_getElem hlen fun x hx hx' => ?_
  have hx0 := h x hx
  rwa [getD_eq_getElem _ _ hx, getD_eq_getElem _ _ hx'] at hx0

theorem getD_take {n : Nat} (h : x < n) : (l.take n).getD x 0 = l.getD x 0 := by
  rw [getD_eq_getElem?_getD, getD_eq_getElem?_getD, getElem?_take, if_pos h]

theorem getD_drop {n : Nat} : (l.drop n).getD x 0 = l.getD (n + x) 0 := by
  rw [getD_eq_getElem?_getD, getD_eq_getElem?_getD, getElem?_drop]

theorem getD_append :
    (l ++ l').getD x 0 = if x < l.length then l.getD x 0 else l'.getD (x - l.length) 0 := by
  rw [getD_eq_getElem?_getD, getElem?_append]
  split <;> rw [getD_eq_getElem?_getD]

/-- Two writes, the second one behind the first. -/
theorem splice_splice {c d : List UInt8} {off : Nat} (h : off ≤ bytes.length) :
    splice (splice bytes c off) d (off + c.length) = splice bytes (c ++ d) off := by
  have hmid : off + c.length ≤ (splice bytes c off).length := by
    rw [length_splice h]
    omega
  refine ext_getD ?_ fun x _ => ?_
  · rw [length_splice hmid, length_splice h, length_splice h, length_append]
    omega
  · rw [getD_splice hmid, getD_splice h, getD_splice h, getD_append, length_append]
    by_cases hsecond : off + c.length ≤ x ∧ x < off + c.length + d.length
    · rw [if_pos hsecond, if_pos (by omega), if_neg (by omega)]
      congr 1
      omega
    · rw [if_neg hsecond]
      by_cases hfirst : off ≤ x ∧ x < off + c.length
      · rw [if_pos hfirst, if_pos (by omega), if_pos (by omega)]
      · rw [if_neg hfirst, if_neg (by omega)]

/-- The bytes of a file that a write reaches are those of its blocks. -/
theorem take_splice {chunk : List UInt8} {off : Nat} (hoff : off ≤ size)
    (hsize : size ≤ bytes.length) :
    (splice bytes chunk off).take (max size (off + chunk.length)) =
      splice (bytes.take size) chunk off := by
  have htake : (bytes.take size).length = size := by
    rw [length_take, Nat.min_eq_left hsize]
  have hle : off ≤ (bytes.take size).length := by rw [htake]; exact hoff
  refine ext_getD ?_ fun x hx => ?_
  · rw [length_take, length_splice (Nat.le_trans hoff hsize), length_splice hle, htake]
    omega
  · rw [length_take] at hx
    rw [getD_take (by omega), getD_splice (Nat.le_trans hoff hsize), getD_splice hle]
    by_cases hin : off ≤ x ∧ x < off + chunk.length
    · rw [if_pos hin, if_pos hin]
    · rw [if_neg hin, if_neg hin, getD_take (by omega)]

/-- The part of a file that lies in one block. -/
theorem Stored.loadBytes {disk : Disk} {addrs : Nat → Nat} {nb off : Nat}
    (h : Stored disk addrs nb bytes) (hin : off % BSIZE + m ≤ BSIZE)
    (hend : off + m ≤ bytes.length) :
    (disk (slot disk addrs (off / BSIZE))).loadBytes (off % BSIZE) m = (bytes.drop off).take m := by
  have hlen := h.length
  have hlength : ((bytes.drop off).take m).length = m := by
    rw [length_take, length_drop]
    omega
  refine ext_getD (by rw [ByteMem.length_loadBytes, hlength]) fun x hx => ?_
  rw [ByteMem.length_loadBytes] at hx
  have hdata := h.data (off + x) (by omega)
  have hbsize : BSIZE = 1024 := rfl
  have hdiv : (off + x) / BSIZE = off / BSIZE := by
    rw [hbsize] at hin ⊢
    omega
  have hmod : (off + x) % BSIZE = off % BSIZE + x := by
    rw [hbsize] at hin ⊢
    omega
  rw [ByteMem.getD_loadBytes _ hx, getD_take hx, getD_drop, ← hdata, hdiv, hmod]

namespace Fs

variable {sb : Superblock} {s s' : Fs} {ip ip' : Inode} {off n tot room : Nat}

theorem step_fits (off n tot : Nat) : off % BSIZE + step off n tot ≤ BSIZE := by
  have hmod : off % BSIZE < BSIZE := Nat.mod_lt off (by decide)
  rw [step]
  omega

theorem step_le (off : Nat) (htot : tot ≤ n) : tot + step off n tot ≤ n := by
  rw [step]
  omega

/-! ## `readi` -/

/-- The result of a read of `k` bytes that the file has, and the bytes at the destination. -/
def readOut (bytes : List UInt8) (off k room : Nat) : Int × List UInt8 :=
  if k ≤ room then (int32 k, (bytes.drop off).take k) else (-1, (bytes.drop off).take room)

theorem readiLoop_spec {nb : Nat} (h : Stored s.disk ip.addrs nb bytes)
    (hend : off + n ≤ bytes.length) (htot : tot ≤ n) (hroom : tot ≤ room) :
    (readiLoop sb ip (off + tot) n tot room ((bytes.drop off).take tot)).Holds s
      (fun r s' => r = (ip, readOut bytes off n room) ∧ s' = s) fun _ => False := by
  induction hleft : n - tot using Nat.strong_induction_on generalizing tot with
  | _ left ih =>
    rw [readiLoop]
    by_cases hlt : tot < n
    · rw [dif_pos hlt, holds_bind]
      have hlen := h.length
      have hslot : slot s.disk ip.addrs ((off + tot) / BSIZE) ≠ 0 :=
        (h.slots _).mpr (Stored.div_lt (by omega))
      refine bmap_slot sb hslot ?_
      dsimp only
      rw [if_neg hslot, holds_bind, bread, holds_read]
      have hstep := step_le (off + tot) htot
      have hpos := step_pos (off + tot) hlt
      have hfits := step_fits (off + tot) n tot
      generalize hm : step (off + tot) n tot = m at hstep hpos hfits
      by_cases hfault : room < tot + m
      · rw [if_pos hfault]
        refine (holds_pure _).mpr ⟨?_, rfl⟩
        rw [h.loadBytes (by omega) (by omega), readOut, if_neg (by omega), ← drop_drop,
          ← take_add, Nat.add_sub_cancel' hroom]
      · rw [if_neg hfault, h.loadBytes hfits (by omega), ← drop_drop, ← take_add, Nat.add_assoc]
        exact ih (n - (tot + m)) (by omega) hstep (by omega) rfl
    · rw [dif_neg hlt]
      have heq : tot = n := by omega
      subst heq
      refine (holds_pure _).mpr ⟨?_, rfl⟩
      rw [readOut, if_pos hroom]

/-- What `readi` returns for a file with the given bytes. -/
def readResult (bytes : List UInt8) (off n room : Nat) : Int × List UInt8 :=
  if bytes.length < off ∨ U32 ≤ off + n then (0, [])
  else readOut bytes off (min n (bytes.length - off)) room

theorem readOut_take (h : off + k ≤ size) :
    readOut (bytes.take size) off k room = readOut bytes off k room := by
  have htake : ∀ j, j ≤ k → ((bytes.take size).drop off).take j = (bytes.drop off).take j := by
    intro j hj
    rw [drop_take, take_take, Nat.min_eq_left (by omega)]
  rw [readOut, readOut]
  split
  · rw [htake k le_rfl]
  · rw [htake room (by omega)]

/-- **`readi`.**  The bytes from `off` on, up to the end of the file, and nothing is changed. -/
theorem readi_spec (sb : Superblock) (room : Nat) {nb : Nat} (h : Stored s.disk ip.addrs nb bytes)
    (hsize : ip.size ≤ bytes.length) (hoff : off < U32) (hn : n < U32) :
    (readi sb ip off n room).Holds s
      (fun r s' => r = (ip, readResult (bytes.take ip.size) off n room) ∧ s' = s)
      fun _ => False := by
  have hu32 : U32 = 2 ^ 32 := rfl
  have hlen : (bytes.take ip.size).length = ip.size := by
    rw [length_take, Nat.min_eq_left hsize]
  have hmax : bytes.length ≤ MAXFILE * BSIZE := Nat.le_trans h.length (Nat.mul_le_mul_right _ h.nb_le)
  have hbound : MAXFILE * BSIZE < 2 ^ 32 := by decide
  have hwrap : (off + n) % U32 < off ↔ U32 ≤ off + n := by
    rw [hu32] at hoff hn ⊢
    omega
  rw [readi, readResult, hlen]
  simp only [hwrap]
  by_cases hnone : ip.size < off ∨ U32 ≤ off + n
  · rw [if_pos hnone, if_pos hnone]
    exact (holds_pure _).mpr ⟨rfl, rfl⟩
  · rw [if_neg hnone, if_neg hnone, Nat.mod_eq_of_lt (by omega), readOut_take (by omega)]
    have hloop : ∀ k, off + k ≤ bytes.length → (readiLoop sb ip off k 0 room []).Holds s
        (fun r s' => r = (ip, readOut bytes off k room) ∧ s' = s) fun _ => False :=
      fun k hk => readiLoop_spec h hk (Nat.zero_le k) (Nat.zero_le room)
    by_cases hlong : ip.size < off + n
    · rw [if_pos hlong, Nat.min_eq_right (by omega)]
      exact hloop _ (by omega)
    · rw [if_neg hlong, Nat.min_eq_left (by omega)]
      exact hloop _ (by omega)

/-! ## `writei` -/

section Write

variable {heads : Nat → Nat → Nat} {nb : Nat → Nat} {full : Nat → List UInt8} {src : List UInt8}

/-- Why a write ends: everything is written, a byte of the source cannot be read, or the disk is
full.  `k` bytes of the source are in the blocks of the file, `tot` of them are counted, and the file
had `m` blocks before. -/
inductive WriteEnd (sb : Superblock) (src : List UInt8) (n m : Nat) (s' : Fs) (off tot : Nat) :
    Nat → Prop
  | all : tot = n → WriteEnd sb src n m s' off tot n
  | fault : src.length < tot + step off n tot → WriteEnd sb src n m s' off tot src.length
  | noBlock : tot < n → Full sb s'.disk → m ≤ off / BSIZE → WriteEnd sb src n m s' off tot tot

theorem WriteEnd.mono {src : List UInt8} {m' : Nat} (h : WriteEnd sb src n m s off tot k)
    (hle : m' ≤ m) : WriteEnd sb src n m' s off tot k := by
  cases h with
  | all heq => exact .all heq
  | fault hlt => exact .fault hlt
  | noBlock hlt hfull hm => exact .noBlock hlt hfull (Nat.le_trans hle hm)

/-- The bytes from `tot` to `k` of the source are in the file from `off` on. -/
structure Wrote (sb : Superblock) (heads : Nat → Nat → Nat) (nb : Nat → Nat)
    (full : Nat → List UInt8) (ip : Inode) (s : Fs) (src : List UInt8) (off n tot : Nat)
    (r : Inode × Nat × Nat) (s' : Fs) (nblocks k : Nat) : Prop where
  grown : FileGrown sb heads nb (update full ip.inum
    (splice (full ip.inum) ((src.drop tot).take (k - tot)) off)) ip s r.1 s' nblocks
  off : r.2.1 + tot = off + r.2.2
  tot : tot ≤ r.2.2 ∧ r.2.2 ≤ k ∧ k ≤ src.length ∧ r.2.2 ≤ n
  stop : WriteEnd sb src n (nb ip.inum) s' r.2.1 r.2.2 k

/-- Nothing more is written. -/
theorem Wrote.nothing (hgrown : FileGrown sb heads nb full ip s ip' s' m) (htot : tot ≤ n)
    (hsrc : tot ≤ src.length) (hstop : WriteEnd sb src n (nb ip.inum) s' off tot tot) :
    Wrote sb heads nb full ip s src off n tot (ip', off, tot) s' m tot where
  grown := by
    rw [Nat.sub_self, take_zero, splice_nil, update_eq_self]
    exact hgrown
  off := rfl
  tot := ⟨Nat.le_refl _, Nat.le_refl _, hsrc, htot⟩
  stop := hstop

/-- One round stores its bytes in the block that `bmap` found. -/
theorem grown_write (chunk : List UInt8) (hwf : sb.Wf)
    (hgrown : FileGrown sb heads nb full ip s ip' s' m1) (hoff : off ≤ (full ip.inum).length)
    (hlt : off / BSIZE < m1) (hfit : off % BSIZE + chunk.length ≤ BSIZE) (logged : List Nat) :
    FileGrown sb heads nb (update full ip.inum (splice (full ip.inum) chunk off)) ip s ip'
      { disk := update s'.disk (slot s'.disk ip'.addrs (off / BSIZE))
          ((s'.disk (slot s'.disk ip'.addrs (off / BSIZE))).storeBytes (off % BSIZE) chunk)
        logged } m1 := by
  have hnb : off / BSIZE < update nb ip.inum m1 ip.inum := by
    rw [update_self]
    exact hlt
  have hused := (hgrown.volume.filed.slot_used hnb).1
  have hvolume := hgrown.volume.write hwf hoff hnb hfit
  rw [update_self] at hvolume hused
  refine ⟨hvolume, hgrown.same, hgrown.last, fun b hb => ?_⟩
  have hstart := hwf.start
  dsimp only
  rw [update_of_ne (by omega)]
  exact hgrown.before b hb

/-- A round and the rounds after it. -/
theorem Wrote.trans {nblocks : Nat} {s1 : Fs} {ip1 : Inode} {r : Inode × Nat × Nat}
    (hm1 : nb ip.inum ≤ m1) (hoff : off ≤ (full ip.inum).length) (hsrc : tot + m ≤ src.length)
    (hgrown : FileGrown sb heads nb (update full ip.inum
      (splice (full ip.inum) ((src.drop tot).take m) off)) ip s ip1 s1 m1)
    (hrest : Wrote sb (update heads ip.inum ip1.addrs) (update nb ip.inum m1)
      (update full ip.inum (splice (full ip.inum) ((src.drop tot).take m) off)) ip1 s1 src
      (off + m) n (tot + m) r s' nblocks k) :
    Wrote sb heads nb full ip s src off n tot r s' nblocks k := by
  have hinum : ip1.inum = ip.inum := by rw [hgrown.same]
  have hlen : ((src.drop tot).take m).length = m := by
    rw [length_take, length_drop]
    omega
  obtain ⟨htot, hk, hksrc, hn⟩ := hrest.tot
  have hall := hgrown.trans hrest.grown
  have happend : (src.drop tot).take (k - tot) =
      (src.drop tot).take m ++ (src.drop (tot + m)).take (k - (tot + m)) := by
    rw [← drop_drop, ← take_add]
    congr 1
    omega
  have hstop := hrest.stop
  rw [hinum, update_self] at hstop
  refine ⟨?_, ?_, ⟨by omega, hk, hksrc, hn⟩, hstop.mono hm1⟩
  · rw [hinum, update_self, update_idem] at hall
    rw [happend, ← splice_splice hoff, hlen]
    exact hall
  · have hoff' := hrest.off
    omega

theorem writeiLoop_spec (hwf : sb.Wf) (h : Volume sb s.disk heads nb full)
    (hip : ip.addrs = heads ip.inum) (hoff : off ≤ (full ip.inum).length)
    (hmax : off + (n - tot) ≤ MAXFILE * BSIZE) (htot : tot ≤ n) (hsrc : tot ≤ src.length) :
    (writeiLoop sb ip off n tot src).Holds s (fun r s' => ∃ nblocks k,
      Wrote sb heads nb full ip s src off n tot r s' nblocks k) fun _ => False := by
  induction hleft : n - tot using Nat.strong_induction_on
    generalizing tot off s ip heads nb full with
  | _ left ih =>
    rw [writeiLoop]
    by_cases hlt : tot < n
    · rw [dif_pos hlt]
      have hlen := (h.filed.files ip.inum).length
      have hbn : off / BSIZE ≤ nb ip.inum := Nat.div_le_of_le_mul (by rw [Nat.mul_comm]; omega)
      have hbnmax : off / BSIZE < MAXFILE := Nat.div_lt_of_lt_mul (by rw [Nat.mul_comm]; omega)
      refine (bmap_spec hwf h hip hbn hbnmax).bind ?_
      rintro ⟨ip1, addr⟩ s1 hbmap
      rcases hbmap.cases h hip with ⟨haddr, heq, hfull, hgrown⟩ | ⟨haddr, hslot, -, hgrown⟩
      · dsimp only at haddr ⊢
        rw [if_pos haddr]
        exact (holds_pure _).mpr
          ⟨_, tot, .nothing hgrown htot hsrc (.noBlock hlt hfull (Nat.le_of_eq heq.symm))⟩
      · dsimp only at haddr hslot hgrown ⊢
        subst hslot
        rw [if_neg haddr]
        have hm1 : off / BSIZE < max (nb ip.inum) (off / BSIZE + 1) := by omega
        have hstep := step_le off htot
        have hpos := step_pos off hlt
        have hfits := step_fits off n tot
        generalize hm : step off n tot = m at hstep hpos hfits
        have hchunk : ((src.drop tot).take m).length ≤ m := length_take_le _ _
        have hwrite := grown_write ((src.drop tot).take m) hwf hgrown hoff hm1 (by omega)
        rw [modify, holds_bind, holds_update]
        by_cases hfault : src.length < tot + m
        · rw [if_pos hfault]
          have hall : (src.drop tot).take (src.length - tot) = (src.drop tot).take m := by
            rw [take_of_length_le (by rw [length_drop]),
              take_of_length_le (by rw [length_drop]; omega)]
          refine (holds_pure _).mpr ⟨max (nb ip.inum) (off / BSIZE + 1), src.length, ?_, rfl,
            ⟨Nat.le_refl _, hsrc, Nat.le_refl _, htot⟩, .fault (by rw [hm]; exact hfault)⟩
          rw [hall]
          exact hwrite _
        · rw [if_neg hfault, logWrite, holds_bind, holds_update]
          have hinum : ip1.inum = ip.inum := by rw [hgrown.same]
          have hchunk' : ((src.drop tot).take m).length = m := by
            rw [length_take, length_drop]
            omega
          refine (ih (n - (tot + m)) (by omega) (hwrite _).volume ?_ ?_ (by omega) hstep
            (by omega) rfl).imp ?_
          · rw [hinum, update_self]
          · rw [hinum, update_self, length_splice hoff, hchunk']
            omega
          · rintro r s'' ⟨nblocks, k, hrest⟩
            exact ⟨nblocks, k, .trans (Nat.le_max_left _ _) hoff (by omega) (hwrite _) hrest⟩
    · rw [dif_neg hlt]
      have heq : tot = n := by omega
      refine (holds_pure _).mpr ⟨_, tot, .nothing (.refl h hip) htot hsrc ?_⟩
      rw [heq]
      exact .all rfl

end Write

end Fs

end EAFITos
