/-
`sys_exec`: the pages for the arguments are taken, `kexec` runs, and the pages go back;
and one round of `kwait`, which frees a zombie child.
-/
import EAFITos.Kexec

namespace EAFITos

open List Prog

variable {own : Policy} {k k' : Kernel} {held held' : List Nat} {i j : Nat}

variable {s' s : Phys} {bufs : List Nat} {addr : Nat}

variable {r uargv vpn : Nat} {s1 : Phys} {img : Image} {p : Proc}

/-! ## Pages outside of the slots -/

theorem KInv.heldPerm (h : KInv own held k) (hp : held'.Perm held) : KInv own held' k :=
  { h with good := h.good.perm (hp.append_left _) }

theorem Touched.heldPerm {slots held'' : List Nat} (h : Touched own k' k slots held' held)
    (hp : held''.Perm held') : Touched own k' k slots held'' held := { h with
    inv := h.inv.heldPerm hp
    perm := (hp.append_left _).trans h.perm }

theorem KInv.looseGood (h : KInv own held k) : Good k.phys (k.phys.freelist ++ held) := by
  have hperm : (k.phys.freelist ++ held ++ (k.kbufs ++
      (List.range NPROC).flatMap (slotPages own k))).Perm (pages own k ++ held) := by
    refine perm_iff_count.2 fun pg => ?_
    simp only [pages, count_append]
    omega
  exact (h.good.perm hperm).left

/-- Giving back pages that were held. -/
theorem kfreeAll_loose (bufs : List Nat) (hgood : Good s (s.freelist ++ (bufs ++ held))) :
    (Prog.forEach kfree bufs).Holds s
      (fun _ s' => Shift s' s (s'.freelist ++ held) (s.freelist ++ (bufs ++ held)))
      (fun _ => False) := by
  induction bufs generalizing s with
  | nil => exact (holds_ret _).2 (Shift.refl s _)
  | cons pg rest ih =>
    rw [Prog.forEach, holds_andThen]
    refine (kfree_loose hgood).imp fun _ s1 hshift => ?_
    exact (ih (hshift.good hgood)).imp fun _ s2 hrest => hrest.trans hshift

theorem KInv.freeBufs (h : KInv own (bufs ++ held) k) :
    (onPhys (Prog.forEach kfree bufs)).Holds k (fun _ k' => ∃ s', k' = { k with phys := s' } ∧
        Touched own k' k [] held (bufs ++ held)) (fun _ => False) := by
  rw [holds_onPhys]
  exact (kfreeAll_loose bufs h.looseGood).imp fun _ s' hshift =>
    ⟨s', rfl, h.shuffle hshift⟩

/-! ## The process goes on -/

theorem Touched.sameLeaves (ht : Touched own { k with phys := s' } k [] held' held)
    (hi : i < NPROC) (htable : (k.proc i).pagetable ≠ 0) :
    SameLeaves s' k.phys (k.proc i).pagetable :=
  fun _ hvpn => (ht.other i hi not_mem_nil).leafPte_eq htable hvpn

/-- Pages of process `i` below its size may have been materialised; its bytes and its trapframe
are what they were. -/
structure Untouched (own : Policy) (k : Kernel) (i : Nat) (s' : Phys) : Prop where
  leaf : LeafFaulted s' k.phys (k.proc i).pagetable (k.proc i).sz
  bytes : SameBytes s' k.phys (k.proc i).pagetable (own i (k.proc i).sz)
  frame : SamePage s'.mem k.phys.mem (k.proc i).trapframe

theorem Untouched.refl (own : Policy) (k : Kernel) (i : Nat) : Untouched own k i k.phys :=
  ⟨LeafFaulted.of_same fun _ _ => rfl, fun _ _ => rfl, ByteMem.AgreeOn.refl _ _ _⟩

theorem Untouched.trans (h : Untouched own k i s) (h' : Untouched own { k with phys := s } i s') :
    Untouched own k i s' :=
  ⟨h'.leaf.trans h.leaf, fun a hown => (h'.bytes a hown).trans (h.bytes a hown),
    h'.frame.trans h.frame⟩

theorem Untouched.userFaulted (h : Untouched own k i s') :
    UserFaulted s' k.phys (k.proc i).pagetable (own i (k.proc i).sz) (k.proc i).sz :=
  ⟨h.leaf, fun a hown hne => absurd (h.bytes a hown) hne⟩

theorem Touched.untouched (ht : Touched own { k with phys := s' } k [] held' held)
    (hi : i < NPROC) (hlive : Live k.phys (k.proc i))
    (huser : ∀ vpn, own i (k.proc i).sz vpn = true → vpn < TFVPN) : Untouched own k i s' := by
  have htf : TFVPN = 2 ^ 26 - 2 := rfl
  have hother := ht.other i hi not_mem_nil
  refine ⟨LeafFaulted.of_same (ht.sameLeaves hi hlive.table), fun a hown => ?_, hother.mem _ ?_⟩
  · have hlow := huser _ hown
    exact hother.byteAt_eq hlive.table (by omega) hown
  · rw [slotPages, procPages_live hlive.table hlive.frame]
    exact mem_cons_self

theorem Acts.shuffle (h : Acts own held k i)
    (ht : Touched own { k with phys := s' } k [] held' held) (hsub : held ⊆ held') :
    Acts own held' { k with phys := s' } i := by
  refine ⟨ht.inv, h.slot, h.running, h.low, h.user, fun vpn pte hvpn hpte huser => ?_⟩
  rw [ht.sameLeaves h.slot h.live.table vpn hvpn] at hpte
  exact (h.pages vpn pte hvpn hpte huser).imp_right fun hmem => hsub hmem

theorem Acts.afterFault (h : Acts own held k i)
    (ht : Touched own { k with phys := s' } k [i] held held)
    (hleaf : LeafFaulted s' k.phys (k.proc i).pagetable (k.proc i).sz) :
    Acts own held { k with phys := s' } i := by
  refine ⟨ht.inv, h.slot, h.running, h.low, h.user, fun vpn pte hvpn hpte huser => ?_⟩
  rcases hleaf vpn hvpn with hsame | ⟨_, hlt, _⟩
  · exact h.pages vpn pte hvpn (hsame ▸ hpte) huser
  · exact Or.inl (h.low vpn hlt)

theorem Acts.heldPerm (h : Acts own held k i) (hp : held'.Perm held) : Acts own held' k i :=
  { h with
    inv := h.inv.heldPerm hp
    pages := fun vpn pte hvpn hpte huser =>
      (h.pages vpn pte hvpn hpte huser).imp_right fun hmem => hp.mem_iff.2 hmem }

/-! ## Fetching the arguments -/

/-- `copyin` does not touch the trapframe, which is not among the pages that it works with. -/
theorem Acts.copyin_frame (h : Acts own held k i) {src len : Nat} :
    (onPhys (EAFITos.copyin (k.proc i).sz (k.proc i).pagetable (k.proc i).pagetable src
      len)).Holds k (fun _ k' => SamePage k'.phys.mem k.phys.mem (k.proc i).trapframe) (fun _ => False) := by
  have hsep := h.inv.sep h.slot h.used
  have hperm : (ledger k.phys (k.proc i).pagetable (own i (k.proc i).sz)
      ((k.proc i).trapframe :: held)).Perm ((k.proc i).trapframe ::
        ledger k.phys (k.proc i).pagetable (own i (k.proc i).sz) held) := by
    simp only [ledger, ← append_assoc]
    exact perm_middle
  have hgood := hsep.good.perm hperm.symm
  have hout := nodup_cons.1 hgood.nodup
  have henv : UserEnv k.phys (k.proc i).pagetable (own i (k.proc i).sz) held (k.proc i).sz :=
    { h.userEnv with
      sep := ⟨hsep.inv, hout.2, fun pg hpg => hgood.heap pg (mem_cons_of_mem _ hpg)⟩
      pages := h.pages }
  rw [holds_onPhys]
  exact (copyin_spec henv).imp fun _ _ hpost =>
    hpost.1.shift.frame _ (hgood.heap _ mem_cons_self).1 hout.1

/-- `fetchaddr` materialises pages at most. -/
theorem fetchaddr_spec (h : Acts own held k i) :
    (fetchaddr i addr).Holds k
      (fun _ k' => ∃ s', k' = { k with phys := s' } ∧ Touched own k' k [i] held held ∧
        Untouched own k i s') (fun _ => False) := by
  rw [fetchaddr, holds_bind, holds_getProc]
  split
  · rw [holds_pure]
    exact ⟨k.phys, rfl, (Touched.refl h.inv).mono (nil_subset _), Untouched.refl _ _ _⟩
  · rw [holds_bind]
    refine (h.copyin.and h.copyin_frame).mono ?_ (fun _ h => h.1.elim)
    rintro r k' ⟨⟨s', rfl, ht, -, hfaulted, hbytes, -⟩, hframe⟩
    have hsame : Untouched own k i s' := ⟨hfaulted.leaf, hbytes, hframe⟩
    cases r with
    | none => exact (holds_pure _).2 ⟨s', rfl, ht, hsame⟩
    | some bytes => exact (holds_pure _).2 ⟨s', rfl, ht, hsame⟩

theorem fetchstr_spec {room : Nat} : (fetchstr i addr room).Holds k
      (fun r k' => k' = k ∧ ∀ str, r = some str → str.length < room) (fun _ => False) := by
  rw [fetchstr, holds_bind, holds_getProc, holds_onPhys]
  refine copyinstr_spec.imp ?_
  rintro r s' ⟨rfl, hlen⟩
  exact ⟨rfl, hlen⟩

/-- One more page for an argument. -/
theorem Acts.takeBuf {rest : List Nat} (h : Acts own held k i)
    (hfree : k.phys.freelist = r :: rest) :
    Touched own { k with phys := { k.phys with freelist := rest, mem := k.phys.mem.fill r 5 4096 } }
      k [] (r :: held) held := by
  have hheap := h.inv.looseGood.heap r (by rw [hfree]; exact mem_cons_self)
  exact h.inv.shuffle (shift_take held hfree (fill_frame _ _ hheap.1))

/-- Writing an argument into its page. -/
theorem Acts.fillBuf (h : Acts own (r :: held) k i) (bytes : List UInt8)
    (hfit : bytes.length ≤ 4096) :
    Touched own { k with phys := { k.phys with mem := k.phys.mem.storeBytes r bytes } }
      k [] (r :: held) (r :: held) := by
  have hheap := h.inv.looseGood.heap r (mem_append_right _ mem_cons_self)
  refine h.inv.shuffle ⟨List.Perm.refl _, ?_, ⟨rfl, rfl, rfl⟩, rfl⟩
  intro other hother hout
  have hne : other ≠ r := by
    rintro rfl
    exact hout (mem_append_right _ mem_cons_self)
  have happart := pages_apart hother hheap.1 hne
  exact ByteMem.storeBytes_agreeOn k.phys.mem (by omega)

/-- What the loop of `sys_exec` over the arguments does. -/
structure Fetched (own : Policy) (held : List Nat) (k : Kernel) (i : Nat) (bufs : List Nat)
    (r : ArgBufs) (k' : Kernel) : Prop where
  acts : Acts own (r.pages ++ held) k' i
  mem : ∃ s', k' = { k with phys := s' } ∧ Untouched own k i s'
  touched : Touched own k' k [i] (r.pages ++ held) (bufs ++ held)
  strs : ∀ strs, r.strs = some strs → ∀ str ∈ strs, str.length < 4096

theorem Fetched.trans {k1 : Kernel} {bufs1 : List Nat} {r : ArgBufs}
    (h : Fetched own held k1 i bufs1 r k') (hk1 : k1 = { k with phys := s1 })
    (hleaf : Untouched own k i s1) (ht : Touched own k1 k [i] (bufs1 ++ held) (bufs ++ held)) :
    Fetched own held k i bufs r k' := by
  obtain ⟨s', hk', hleaf'⟩ := h.mem
  subst hk1
  refine ⟨h.acts, ⟨s', hk', hleaf.trans hleaf'⟩, (h.touched.trans ht).mono ?_, h.strs⟩
  exact append_subset.2 ⟨List.Subset.refl _, List.Subset.refl _⟩

theorem fetchArgv_spec (n : Nat) {strs : List (List UInt8)} (h : Acts own (bufs ++ held) k i)
    (hstrs : ∀ str ∈ strs, str.length < 4096) :
    (fetchArgv i uargv n bufs strs).Holds k (Fetched own held k i bufs) (fun _ => False) := by
  induction n generalizing k bufs strs with
  | zero =>
    rw [fetchArgv, holds_pure]
    exact ⟨h, ⟨k.phys, rfl, Untouched.refl _ _ _⟩, (Touched.refl h.inv).mono (nil_subset _), nofun⟩
  | succ n ih =>
    rw [fetchArgv, holds_bind]
    refine (fetchaddr_spec h).imp ?_
    rintro r k1 ⟨s1, rfl, ht1, hleaf1⟩
    have h1 := h.afterFault ht1 hleaf1.leaf
    have hstop : ∀ strs', (∀ strs, strs' = some strs → ∀ str ∈ strs, str.length < 4096) →
        Fetched own held k i bufs ⟨bufs, strs'⟩ { k with phys := s1 } :=
      fun strs' hall => ⟨h1, ⟨s1, rfl, hleaf1⟩, ht1, hall⟩
    cases r with
    | none => exact (holds_pure _).2 (hstop none nofun)
    | some uarg =>
      dsimp only
      split
      · rw [holds_pure]
        exact hstop (some strs) fun strs' heq => by cases heq; exact hstrs
      · rw [holds_bind, holds_onPhys, holds_kalloc]
        refine ⟨fun _ => (holds_pure _).2 (hstop none nofun), fun page rest hfree => ?_⟩
        -- the page joins those held, at the end of the arguments so far
        have hperm : (bufs ++ [page] ++ held).Perm (page :: (bufs ++ held)) := by
          rw [append_assoc, singleton_append]
          exact perm_middle
        have htake := h1.takeBuf hfree
        have h2 := h1.shuffle htake (subset_cons_self _ _)
        have hsame2 := htake.untouched h.slot h1.live h.user
        have hleaf2 := hleaf1.trans hsame2
        have ht2 := htake.trans ht1
        dsimp only
        rw [holds_bind]
        refine fetchstr_spec.imp ?_
        rintro r k2 ⟨rfl, hlen⟩
        cases r with
        | none =>
          rw [holds_pure]
          exact ⟨h2.heldPerm hperm, ⟨_, rfl, hleaf2⟩, ht2.heldPerm hperm, nofun⟩
        | some str =>
          have hstr : str.length < 4096 := hlen str rfl
          have hfill := h2.fillBuf (str ++ [0]) (by rw [length_append, length_singleton]; omega)
          have h3 := (h2.shuffle hfill (List.Subset.refl _)).heldPerm hperm
          have hsame3 := hfill.untouched h.slot h2.live h.user
          have ht3 := (hfill.trans ht2).heldPerm hperm
          dsimp only
          rw [holds_bind, holds_onPhys, holds_update]
          refine (ih h3 ?_).imp fun r k' hrest => ?_
          · intro str' hmem
            rcases mem_append.1 hmem with hmem | hmem
            · exact hstrs str' hmem
            · rw [mem_singleton.1 hmem]
              exact hstr
          · exact hrest.trans rfl (hleaf2.trans hsame3) ht3

/-! ## `sys_exec` -/

theorem SameSlot.shows (h : SameSlot own k' k i) (ht : (k.proc i).pagetable ≠ 0)
    (hlow : ∀ vpn, vpn < pgup img.sz → own i (k.proc i).sz vpn = true)
    (hshows : Shows k.phys (k.proc i).pagetable img) :
    Shows k'.phys (k'.proc i).pagetable img := by
  have htf : TFVPN = 2 ^ 26 - 2 := rfl
  have hle := hshows.pages_le
  refine ⟨fun vpn hlt => ?_, fun vpn hlo hlt => ?_, fun a hlt => ?_, hshows.fits⟩
  · rw [h.leafPte_eq ht (by omega)]
    exact hshows.mapped vpn hlt
  · rw [h.leafPte_eq ht (by omega)]
    exact hshows.empty vpn hlo hlt
  · rw [h.byteAt_eq ht (by omega) (hlow _ hlt)]
    exact hshows.bytes a hlt

theorem SameSlot.shows_put (h : SameSlot own (putSlot k i s' p) (putSlot k i s p) i)
    (ht : p.pagetable ≠ 0) (hlow : ∀ vpn, vpn < pgup img.sz → own i p.sz vpn = true)
    (hshows : Shows s p.pagetable img) :
    Shows s' p.pagetable img := by
  have hself := putSlot_proc k i s p
  have hshown := h.shows (by rw [hself]; exact ht) (by rw [hself]; exact hlow)
    (by rw [hself]; exact hshows)
  rw [putSlot_proc] at hshown
  exact hshown

/-- What `sys_exec` does: it fails and has materialised pages at most, or the process has
the image of a file for its memory. -/
def SysExecPost (own : Policy) (held : List Nat) (k : Kernel) (i : Nat)
    (namei : List UInt8 → Option (List UInt8)) (r : Int) (k' : Kernel) : Prop :=
  (r = -1 ∧ ∃ s', k' = { k with phys := s' } ∧ Touched own k' k [i] held held ∧
      Untouched own k i s') ∨
    ∃ path bytes argv img sp argc s1 s' root, namei path = some bytes ∧
      execImage bytes argv = some (img, sp, argc) ∧ r = argc ∧
      Untouched own k i s1 ∧ k' = putSlot k i s' { k.proc i with pagetable := root, sz := img.sz } ∧
      (∀ vpn, ¬ Uncovered k.phys.mem (k.proc i).pagetable (k.proc i).sz vpn) ∧
      Touched own k' k [i]
        (lostPages s1.mem (k.proc i).pagetable (own i (k.proc i).sz) ++ held) held ∧
      Shows s' root img ∧ root ≠ (k.proc i).pagetable

/-- Pages that are materialised lie below the size. -/
theorem uncovered_faulted {root sz : Nat} (h : LeafFaulted s' s root sz) :
    Uncovered s'.mem root sz vpn ↔ Uncovered s.mem root sz vpn := by
  have htf : TFVPN = 2 ^ 26 - 2 := rfl
  have hsame : pgup sz ≤ vpn → vpn < TFVPN → leafPte s'.mem root vpn = leafPte s.mem root vpn := by
    intro hlo hlt
    rcases h vpn (by omega) with hsame | ⟨_, hlow, _⟩
    · exact hsame
    · omega
  constructor
  · rintro ⟨hlo, hlt, hsh, hro, hleaf⟩
    exact ⟨hlo, hlt, hsh, hro, hsame hlo hlt ▸ hleaf⟩
  · rintro ⟨hlo, hlt, hsh, hro, hleaf⟩
    exact ⟨hlo, hlt, hsh, hro, (hsame hlo hlt).symm ▸ hleaf⟩

theorem sysExec_spec (h : Acts own held k i) {namei : List UInt8 → Option (List UInt8)}
    {upath : Nat} (huser : ∀ sz vpn, own i sz vpn = true → vpn < TFVPN)
    (hlow : ∀ sz vpn, sz ≤ TRAPFRAME → vpn < pgup sz → own i sz vpn = true) :
    (sysExec namei i upath uargv).Holds k (SysExecPost own held k i namei)
      (fun message => message = "freewalk: leaf" ∧
        ∃ vpn, Uncovered k.phys.mem (k.proc i).pagetable (k.proc i).sz vpn) := by
  rw [sysExec, holds_bind]
  refine fetchstr_spec.mono ?_ nofun
  rintro r k0 ⟨rfl, -⟩
  cases r with
  | none =>
    rw [holds_pure]
    exact Or.inl ⟨rfl, k0.phys, rfl, (Touched.refl h.inv).mono (nil_subset _), Untouched.refl _ _ _⟩
  | some path =>
    dsimp only
    rw [holds_bind]
    have hfetch : (fetchArgv i uargv MAXARG [] []).Holds k0 (Fetched own held k0 i [])
        (fun _ => False) := fetchArgv_spec MAXARG h fun _ hmem => absurd hmem not_mem_nil
    refine hfetch.mono ?_ nofun
    rintro ⟨bufs, strs⟩ k1 ⟨hacts, ⟨s1, rfl, hleaf1⟩, ht1, hstrs⟩
    cases strs with
    | none =>
      dsimp only
      rw [holds_bind]
      refine hacts.inv.freeBufs.mono ?_ nofun
      rintro _ k2 ⟨s2, rfl, ht2⟩
      rw [holds_pure]
      have hsame := ht2.untouched h.slot hacts.live h.user
      exact Or.inl ⟨rfl, s2, rfl, ht2.trans ht1, hleaf1.trans hsame⟩
    | some argv =>
      dsimp only
      rw [holds_bind]
      refine (kexec_spec hacts.inv h.slot h.used (hstrs argv rfl) huser hlow).mono ?_ ?_
      · rintro r k2 (⟨rfl, s2, rfl, ht2⟩ |
          ⟨bytes, img, sp, argc, s2, root, hfile, himage, rfl, rfl, hnone, ht2, hshows, hroot⟩)
        · rw [holds_bind]
          refine ht2.inv.freeBufs.mono ?_ nofun
          rintro _ k3 ⟨s3, rfl, ht3⟩
          rw [holds_pure]
          have hsame := ht2.untouched h.slot hacts.live h.user
          have hlive2 := ht2.inv.live i h.slot h.used
          have hsame' := ht3.untouched h.slot hlive2 h.user
          exact Or.inl ⟨rfl, s3, rfl, ht3.trans (ht2.trans ht1), (hleaf1.trans hsame).trans hsame'⟩
        · have hperm : ∀ lost : List Nat,
              (bufs ++ (lost ++ held)).Perm (lost ++ (bufs ++ held)) := by
            intro lost
            refine perm_iff_count.2 fun pg => ?_
            simp only [count_append]
            omega
          have ht2' := ht2.heldPerm (hperm _)
          rw [holds_bind]
          refine ht2'.inv.freeBufs.mono ?_ nofun
          rintro _ k3 ⟨s3, rfl, ht3⟩
          rw [holds_pure]
          refine Or.inr ⟨path, bytes, argv, img, sp, argc, s1, s3, root, hfile, himage, rfl, hleaf1,
            rfl, fun vpn hvpn => hnone vpn ((uncovered_faulted hleaf1.leaf).2 hvpn), ?_, ?_, hroot⟩
          · exact (ht3.trans (ht2'.trans ht1)).mono (by simp)
          · have hself := putSlot_proc { k0 with phys := s1 } i s2
              { k0.proc i with pagetable := root, sz := img.sz }
            have hlive := ht2'.inv.live i h.slot (by rw [hself]; exact h.used)
            have htable := hlive.table
            rw [hself] at htable
            exact SameSlot.shows_put (ht3.other i h.slot not_mem_nil) htable
              (fun vpn hvpn => hlow img.sz vpn hshows.fits hvpn) hshows
      · rintro message ⟨hmessage, vpn, hvpn⟩
        exact ⟨hmessage, vpn, (uncovered_faulted hleaf1.leaf).1 hvpn⟩

/-! ## `kwait` -/

/-- A child that `kwait` of process `i` can reap. -/
def ZombieChild (k : Kernel) (i j : Nat) : Prop :=
  j < NPROC ∧ (k.proc j).parent = some i ∧ (k.proc j).state = .ZOMBIE

/-- What one round of `kwait` does: a zombie child is freed, or the process records are
what they were. -/
def WaitPost (own : Policy) (held : List Nat) (k : Kernel) (i : Nat) (r : Option Int)
    (k' : Kernel) : Prop :=
  ((r = none ∨ r = some (-1)) ∧ ∃ s', k' = { k with phys := s' } ∧
      Touched own k' k [i] held held ∧
      UserFaulted s' k.phys (k.proc i).pagetable (own i (k.proc i).sz) (k.proc i).sz) ∨
    ∃ j s1 s', ZombieChild k i j ∧ r = some (k.proc j).pid ∧
      (∀ vpn, ¬ Stranded k.phys.mem (k.proc j) vpn) ∧
      k' = putSlot k j s' freedProc ∧
      Touched own { k with phys := s1 } k [i] held held ∧
      UserFaulted s1 k.phys (k.proc i).pagetable (own i (k.proc i).sz) (k.proc i).sz ∧
      Touched own k' { k with phys := s1 } [j]
        (lostPages k.phys.mem (k.proc j).pagetable (own j (k.proc j).sz) ++ held) held

theorem stranded_congr {m m' : ByteMem}
    (h : ∀ vpn, vpn < 512 ^ 3 → leafPte m' p.pagetable vpn = leafPte m p.pagetable vpn) :
    Stranded m' p vpn ↔ Stranded m p vpn := by
  have htf : TFVPN = 2 ^ 26 - 2 := rfl
  constructor
  · rintro ⟨⟨hlo, hlt, hsh, hro, hleaf⟩, hregion⟩
    exact ⟨⟨hlo, hlt, hsh, hro, h vpn (by omega) ▸ hleaf⟩, hregion⟩
  · rintro ⟨⟨hlo, hlt, hsh, hro, hleaf⟩, hregion⟩
    exact ⟨⟨hlo, hlt, hsh, hro, (h vpn (by omega)).symm ▸ hleaf⟩, hregion⟩

/-- The end of a zombie child, after its status has been copied out. -/
theorem kwait_reap (h : Acts own held k i) (hchild : ZombieChild k i j)
    (ht1 : Touched own { k with phys := s1 } k [i] held held)
    (hleaf1 : UserFaulted s1 k.phys (k.proc i).pagetable (own i (k.proc i).sz) (k.proc i).sz)
    (huser : ∀ vpn, own j (k.proc j).sz vpn = true → vpn < TFVPN)
    (hcover : ∀ vpn, vpn < pgup (k.proc j).sz ∨ RegionVpn (k.proc j) vpn →
      leafPte k.phys.mem (k.proc j).pagetable vpn ≠ none → own j (k.proc j).sz vpn = true) :
    (freeproc j).Holds { k with phys := s1 }
      (fun _ k' => WaitPost own held k i (some (k.proc j).pid) k')
      (fun message => message = "freewalk: leaf" ∧ ∃ vpn, Stranded k.phys.mem (k.proc j) vpn) := by
  obtain ⟨hj, hparent, hzombie⟩ := hchild
  have htf : TFVPN = 2 ^ 26 - 2 := rfl
  have hused : (k.proc j).state ≠ .UNUSED := by rw [hzombie]; decide
  have hji : j ≠ i := by
    rintro rfl
    rw [h.running] at hzombie
    cases hzombie
  have hlive := h.inv.live j hj hused
  have hsame : SameLeaves s1 k.phys (k.proc j).pagetable :=
    fun vpn hvpn => (ht1.other j hj (by simpa using hji)).leafPte_eq hlive.table hvpn
  have hcover1 : ∀ vpn, vpn < pgup (k.proc j).sz ∨ RegionVpn (k.proc j) vpn →
      leafPte s1.mem (k.proc j).pagetable vpn ≠ none → own j (k.proc j).sz vpn = true := by
    intro vpn hor hleaf
    have hvpn : vpn < 512 ^ 3 := by
      rcases hor with hlt | hregion
      · have hle : pgup (k.proc j).sz ≤ TFVPN := pgup_le hlive.small
        omega
      · have hbound := (hregion.bounds hlive.region).2
        omega
    exact hcover vpn hor (hsame vpn hvpn ▸ hleaf)
  refine (freeproc_spec ht1.inv hj hused huser hcover1).mono ?_ ?_
  · rintro _ k' ⟨hnone, s', rfl, ht⟩
    refine Or.inr ⟨j, s1, s', ⟨hj, hparent, hzombie⟩, rfl, ?_, rfl, ht1, hleaf1, ?_⟩
    · exact fun vpn hvpn => hnone vpn ((stranded_congr hsame).2 hvpn)
    · rwa [lostPages_congr fun vpn hvpn => hsame vpn (by omega)] at ht
  · rintro message ⟨hmessage, vpn, hvpn⟩
    exact ⟨hmessage, vpn, (stranded_congr hsame).1 hvpn⟩

theorem kwait_spec (h : Acts own held k i)
    (huser : ∀ j vpn, j < NPROC → own j (k.proc j).sz vpn = true → vpn < TFVPN)
    (hcover : ∀ j vpn, ZombieChild k i j → vpn < pgup (k.proc j).sz ∨ RegionVpn (k.proc j) vpn →
      leafPte k.phys.mem (k.proc j).pagetable vpn ≠ none → own j (k.proc j).sz vpn = true) :
    (kwait i addr).Holds k (WaitPost own held k i) (fun message => message = "freewalk: leaf" ∧
        ∃ j vpn, ZombieChild k i j ∧ Stranded k.phys.mem (k.proc j) vpn) := by
  have hrefl : Touched own k k [i] held held := (Touched.refl h.inv).mono (nil_subset _)
  have hleaf : UserFaulted k.phys k.phys (k.proc i).pagetable (own i (k.proc i).sz) (k.proc i).sz :=
    UserFaulted.refl _ _ _ _
  have hsame : ∀ r, r = none ∨ r = some (-1) → WaitPost own held k i r k :=
    fun r hr => Or.inl ⟨hr, k.phys, rfl, hrefl, hleaf⟩
  rw [kwait, holds_bind, holds_read]
  cases hscan : scanProc (fun p => p.parent = some i ∧ p.state = .ZOMBIE) k with
  | some j =>
    obtain ⟨hj, htest⟩ := scanProc_some hscan
    have hchild : ZombieChild k i j := ⟨hj, of_decide_eq_true htest⟩
    have hreap : ∀ {s1 : Phys}, Touched own { k with phys := s1 } k [i] held held →
        UserFaulted s1 k.phys (k.proc i).pagetable (own i (k.proc i).sz) (k.proc i).sz →
        (freeproc j).Holds { k with phys := s1 }
          (fun _ k' => WaitPost own held k i (some (k.proc j).pid) k')
          (fun message => message = "freewalk: leaf" ∧
            ∃ j vpn, ZombieChild k i j ∧ Stranded k.phys.mem (k.proc j) vpn) := by
      intro s1 ht1 hleaf1
      refine (kwait_reap h hchild ht1 hleaf1 (fun vpn => huser j vpn hj)
        fun vpn => hcover j vpn hchild).mono (fun _ _ hpost => hpost) ?_
      rintro message ⟨hmessage, vpn, hvpn⟩
      exact ⟨hmessage, j, vpn, hchild, hvpn⟩
    dsimp only
    rw [holds_bind, holds_getProc, holds_bind, holds_getProc]
    split
    · rw [holds_bind]
      refine h.copyout.mono ?_ nofun
      rintro r k1 ⟨s1, rfl, ht1, hpost⟩
      split
      · rw [holds_pure]
        exact Or.inl ⟨Or.inr rfl, s1, rfl, ht1, hpost.userFaulted⟩
      · rw [holds_bind]
        exact (hreap ht1 hpost.userFaulted).imp fun _ k' hpost' => (holds_pure _).2 hpost'
    · rw [holds_bind]
      exact (hreap hrefl hleaf).imp fun _ k' hpost' => (holds_pure _).2 hpost'
  | none =>
    dsimp only
    rw [holds_bind, holds_read]
    cases scanProc (fun p => p.parent = some i) k with
    | none => exact (holds_pure _).2 (hsame _ (Or.inr rfl))
    | some _ =>
      dsimp only
      rw [holds_bind, holds_getProc]
      split
      · exact (holds_pure _).2 (hsame _ (Or.inr rfl))
      · exact (holds_pure _).2 (hsame _ (Or.inl rfl))

end EAFITos
