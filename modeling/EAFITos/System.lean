/-
The kernel as a machine: it boots, and then any number of processes make system calls
and touch memory, one call at a time.
-/
import EAFITos.Sysexec
import EAFITos.Transition

namespace EAFITos

open Function List Prog Option

variable {vpn sz : Nat} {own : Policy}

/-- What a running process does.  Arguments are raw registers, and the files that `exec`
finds are part of the event; `copyin` and `copyout` stand for the accesses that other
system calls make to user memory. -/
inductive Call where
  | sbrk (n : Nat)
  | mapzero (size : Nat)
  | mapRo (va : Nat)
  | shmem (pid va : Nat)
  | fork
  | exec (namei : List UInt8 → Option (List UInt8)) (upath uargv : Nat)
  | exit (status : Nat)
  | wait (addr : Nat)
  | load (va : Nat)
  | store (va : Nat) (b : UInt8)
  | copyin (src len : Nat)
  | copyout (dst : Nat) (bytes : List UInt8)

/-- Run a program for its effect alone. -/
def ignoring {α : Type} (x : Prog Kernel α) : Prog Kernel PUnit := do
  let _ ← x
  pure ⟨⟩

/-- The kernel's `copyin` from and `copyout` to the memory of process `i`. -/
def copyinFrom (i src len : Nat) : Prog Kernel (Option (List UInt8)) := do
  let p ← getProc i
  onPhys (copyin p.sz p.pagetable p.pagetable src len)

def copyoutTo (i dst : Nat) (bytes : List UInt8) : Prog Kernel Int := do
  let p ← getProc i
  onPhys (copyout p.sz p.pagetable p.pagetable dst bytes)

def Call.run (i : Nat) : Call → Prog Kernel PUnit
  | .sbrk n => ignoring (sysSbrk i n)
  | .mapzero size => ignoring (sysMapzero i size)
  | .mapRo va => ignoring (sysMapRo i va)
  | .shmem pid va => ignoring (sysShmem i pid va)
  | .fork => ignoring (kfork i)
  | .exec namei upath uargv => ignoring (sysExec namei i upath uargv)
  | .exit status => kexit i (argint status)
  | .wait addr => ignoring (kwait i addr)
  | .load va => ignoring (userLoad i va)
  | .store va b => ignoring (userStore i va b)
  | .copyin src len => ignoring (copyinFrom i src len)
  | .copyout dst bytes => ignoring (copyoutTo i dst bytes)

/-- One call by the process in slot `e.1`; a kernel that panics takes no step. -/
def Kernel.next (k : Kernel) (e : Nat × Call) : Option Kernel :=
  if e.1 < NPROC ∧ (k.proc e.1).state = .RUNNABLE then
    match e.2.run e.1 k with
    | .ok _ k' => some k'
    | _ => none
  else none

/-- `userinit`.  Without memory for the first process the kernel faults on a null
pointer. -/
def userinit : Prog Kernel PUnit := do
  match ← allocproc with
  | none => Prog.panic "kerneltrap"
  | some i => do
    Prog.update fun k => { k with initproc := i }
    setProc i fun p => { p with state := .RUNNABLE }

/-- The bytes of `"/init"`. -/
def initPath : List UInt8 := [0x2f, 0x69, 0x6e, 0x69, 0x74]

/-- The part of `forkret` that the first process runs; `init` is the file `/init`. -/
def forkret (init : Option (List UInt8)) : Prog Kernel PUnit := do
  let i ← Prog.read Kernel.initproc
  if (← kexec i init [initPath]) = -1 then Prog.panic "exec" else pure ⟨⟩

def boot (init : Option (List UInt8)) : Prog Kernel PUnit := do
  userinit
  forkret init

/-- The kernel before `userinit`: pages on the free list or in kernel buffers, and no
process. -/
structure Bare (k : Kernel) : Prop where
  good : Good k.phys (k.phys.freelist ++ k.kbufs)
  low : KERNBASE ≤ k.phys.kend
  high : k.phys.kend ≤ PHYSTOP
  phystop : k.phys.phystop = PHYSTOP
  trampoline : k.phys.trampoline < k.phys.kend
  refreed : k.phys.refreed = false
  procs : ∀ i, k.proc i = freedProc

/-- The states in which the first process starts. -/
def Booted (k : Kernel) : Prop := ∃ k0 init, Bare k0 ∧ boot init k0 = .ok ⟨⟩ k

/-- The user pages of a process are all its own. -/
def fullOwn : Policy := fun _ _ vpn => userVpn vpn

section Machine

variable {k k' : Kernel} {held : List Nat} {i : Nat}

theorem fullOwn_iff {i : Nat} : fullOwn i sz vpn = true ↔ vpn < TFVPN :=
  userVpn_iff

theorem Live.leaf_fixed {s : Phys} {p : Proc} (h : Live s p) {pte : Nat} (hvpn : vpn < 512 ^ 3)
    (hge : TFVPN ≤ vpn) (hpte : leafPte s.mem p.pagetable vpn = some pte) :
    pte = trapframePte p.trapframe ∨ pte = trampolinePte s := by
  have htfvpn : TFVPN = 2 ^ 26 - 2 := rfl
  have hcases : vpn = TFVPN ∨ vpn = TFVPN + 1 ∨ 2 ^ 26 ≤ vpn := by omega
  rcases hcases with rfl | rfl | hhigh
  · rw [h.framed.trapframe, some.injEq] at hpte
    exact Or.inl hpte.symm
  · rw [h.framed.trampoline, some.injEq] at hpte
    exact Or.inr hpte.symm
  · rw [h.inv.leaf_high hhigh hvpn] at hpte
    cases hpte

/-- What a user can reach lies below the trapframe. -/
theorem Live.user_lt {s : Phys} {p : Proc} (h : Live s p) {pte : Nat} (hvpn : vpn < 512 ^ 3)
    (hpte : leafPte s.mem p.pagetable vpn = some pte) (huser : hasFlag pte PTE_U = true) :
    vpn < TFVPN := by
  by_contra hge
  rcases h.leaf_fixed hvpn (by omega) hpte with rfl | rfl
  · rw [trapframePte, hasFlag_mkPte (by decide) (by decide)] at huser
    exact absurd huser (by decide)
  · rw [trampolinePte, hasFlag_mkPte (by decide) (by decide)] at huser
    exact absurd huser (by decide)

theorem KInv.acts (h : KInv fullOwn held k) (hi : i < NPROC)
    (hrun : (k.proc i).state = .RUNNABLE) : Acts fullOwn held k i := by
  have hlive := h.live i hi (by rw [hrun]; decide)
  refine ⟨h, hi, hrun, ?_, fun vpn => fullOwn_iff.mp, ?_⟩
  · intro vpn hvpn
    have hle : pgup (k.proc i).sz ≤ TFVPN := pgup_le hlive.small
    exact fullOwn_iff.mpr (by omega)
  · exact fun vpn pte hvpn hpte huser =>
      Or.inl (fullOwn_iff.mpr (hlive.user_lt hvpn hpte huser))

theorem holds_ignoring {α : Type} {x : Prog Kernel α} {post : PUnit → Kernel → Prop}
    {onPanic : String → Prop} :
    (ignoring x).Holds k post onPanic ↔ x.Holds k (fun _ k' => post ⟨⟩ k') onPanic := by
  rw [ignoring, holds_bind]
  simp only [holds_pure]

/-- The call maps one page into two page tables. -/
def Call.isShmem : Call → Bool
  | .shmem _ _ => true
  | _ => false

/-- Pages have moved between the free list and the slots, and some may be lost. -/
def Moves (held : List Nat) (k k' : Kernel) : Prop :=
  ∃ slots lost, Touched fullOwn k' k slots (lost ++ held) held

theorem Touched.moves {slots : List Nat} (h : Touched fullOwn k' k slots held held) :
    Moves held k k' := ⟨slots, [], h⟩

theorem fullOwn_user (h : fullOwn i sz vpn = true) : vpn < TFVPN :=
  fullOwn_iff.mp h

theorem fullOwn_low (hsz : sz ≤ TRAPFRAME) (hvpn : vpn < pgup sz) :
    fullOwn i sz vpn = true := by
  have hle : pgup sz ≤ TFVPN := pgup_le hsz
  exact fullOwn_iff.mpr (by omega)

/-- What the teardown of a zombie frees belongs to it. -/
theorem zombie_covered (h : KInv fullOwn held k) : ∀ j vpn, ZombieChild k i j →
    vpn < pgup (k.proc j).sz ∨ RegionVpn (k.proc j) vpn →
    leafPte k.phys.mem (k.proc j).pagetable vpn ≠ none →
    fullOwn j (k.proc j).sz vpn = true := by
  rintro j vpn ⟨hj, _, hstate⟩ hvpn _
  have hlive := h.live j hj (by rw [hstate]; decide)
  rcases hvpn with hvpn | hvpn
  · exact fullOwn_low hlive.small hvpn
  · exact fullOwn_iff.mpr (hvpn.bounds hlive.region).2

/-- What a step of the machine is. -/
theorem Kernel.next_eq_some {e : Nat × Call} (h : k.next e = some k') :
    e.1 < NPROC ∧ (k.proc e.1).state = .RUNNABLE ∧ e.2.run e.1 k = .ok ⟨⟩ k' := by
  rw [Kernel.next] at h
  obtain ⟨hguard, h⟩ := ite_none_right_eq_some.mp h
  split at h
  · rename_i hrun
    cases h
    exact ⟨hguard.1, hguard.2, hrun⟩
  · cases h

/-- A call that cannot panic is a step. -/
theorem Kernel.next_of_holds {α : Type} {x : Prog Kernel α} {c : Call} {post : α → Kernel → Prop}
    (hc : c.run i = ignoring x) (hi : i < NPROC) (hrun : (k.proc i).state = .RUNNABLE)
    (h : x.Holds k post fun _ => False) : ∃ r k', k.next (i, c) = some k' ∧ post r k' := by
  obtain ⟨r, k', hx, hpost⟩ := h.exists_ok
  have hcall : c.run i k = .ok ⟨⟩ k' := by
    rw [hc]
    change Prog.andThen x _ k = _
    rw [Prog.andThen, hx]
    rfl
  refine ⟨r, k', ?_, hpost⟩
  rw [Kernel.next, if_pos ⟨hi, hrun⟩]
  dsimp only
  rw [hcall]

/-! ## Booting -/

theorem Bare.inv (h : Bare k) : KInv fullOwn [] k := by
  have hslots : (List.range NPROC).flatMap (slotPages fullOwn k) = [] := by
    rw [flatMap_eq_nil_iff]
    intro j _
    rw [slotPages, h.procs j]
    exact procPages_freed _ _
  have hpages : pages fullOwn k ++ [] = k.phys.freelist ++ k.kbufs := by
    rw [pages, hslots, append_nil, append_nil]
  have hlow := h.low
  have hhigh := h.high
  have htramp := h.trampoline
  have hbase : KERNBASE = 2 ^ 31 := rfl
  have htop : PHYSTOP = 2 ^ 31 + 2 ^ 27 := rfl
  refine ⟨hpages ▸ h.good, by omega, ?_, by omega, ?_, fun j _ _ => h.procs j, ?_⟩
  · rw [h.phystop]
    decide
  · rw [h.phystop]
    omega
  · intro j _ hused
    rw [h.procs j] at hused
    exact absurd rfl hused

/-- The kernel when the first process starts to run: it is alone and has the image of
`/init` for its memory. -/
structure Started (k : Kernel) : Prop where
  inv : KInv fullOwn [] k
  text : k.phys.trampoline < k.phys.kend
  refreed : k.phys.refreed = false
  slot : k.initproc < NPROC
  running : (k.proc k.initproc).state = .RUNNABLE
  alone : ∀ j, j ≠ k.initproc → k.proc j = freedProc
  region : (k.proc k.initproc).hasRegion = false
  image : ∃ img, (k.proc k.initproc).sz = img.sz ∧
    Shows k.phys (k.proc k.initproc).pagetable img

/-- Which process is the first one plays no part in the accounting of pages. -/
theorem KInv.setInit (h : KInv own held k) (i : Nat) :
    KInv own held { k with initproc := i } :=
  ⟨h.good, h.kend, h.bound, h.trampoline, h.room, h.unused, h.live⟩

/-- The kernel after `userinit`: one process with nothing mapped. -/
structure Created (k : Kernel) : Prop where
  inv : KInv fullOwn [] k
  text : k.phys.trampoline < k.phys.kend
  refreed : k.phys.refreed = false
  slot : k.initproc < NPROC
  running : (k.proc k.initproc).state = .RUNNABLE
  alone : ∀ j, j ≠ k.initproc → k.proc j = freedProc
  region : (k.proc k.initproc).hasRegion = false
  empty : ∀ vpn, vpn < TFVPN → leafPte k.phys.mem (k.proc k.initproc).pagetable vpn = none

/-- The last steps of `userinit`. -/
theorem Created.of_slot (h : KInv fullOwn [] k) (htext : k.phys.trampoline < k.phys.kend)
    (hrefreed : k.phys.refreed = false) (hi : i < NPROC) {pid : Int} {trapframe pagetable : Nat}
    (hproc : k.proc i = newProc pid trapframe pagetable)
    (hother : ∀ j, j ≠ i → k.proc j = freedProc)
    (hempty : ∀ vpn, vpn < TFVPN → leafPte k.phys.mem pagetable vpn = none) :
    Created (putSlot { k with initproc := i } i k.phys
      { newProc pid trapframe pagetable with state := .RUNNABLE }) := by
  have hused : (k.proc i).state ≠ .UNUSED := by
    rw [hproc]
    exact nofun
  have hlive := h.live i hi hused
  have hkept : Kept { newProc pid trapframe pagetable with state := .RUNNABLE } (k.proc i) := by
    rw [hproc] at hlive ⊢
    exact ⟨rfl, rfl, nofun, hlive.small,
      ⟨hlive.region.start, hlive.region.size, hlive.region.fits⟩, fun _ => rfl⟩
  have hself := update_self i
    { newProc pid trapframe pagetable with state := .RUNNABLE } k.proc
  have htouched := (h.setInit i).setProcs hi hused (hself ▸ hkept) (by rw [hself, hproc])
    (fun j _ hji => by rw [update_of_ne hji]; exact ⟨rfl, fun _ => rfl⟩) rfl
  refine ⟨htouched.inv, htext, hrefreed, hi, congrArg Proc.state hself, ?_,
    congrArg Proc.hasRegion hself, ?_⟩
  · intro j hji
    exact (update_of_ne hji _ _).trans (hother j hji)
  · intro vpn hvpn
    rw [← hempty vpn hvpn]
    exact congrArg (fun root => leafPte k.phys.mem root vpn) (congrArg Proc.pagetable hself)

theorem userinit_spec (h : Bare k) :
    userinit.Holds k (fun _ k' => Created k') (fun _ => True) := by
  rw [userinit, holds_bind]
  refine (allocproc_spec h.inv fun _ _ _ => fullOwn_user).mono ?_ (by simp)
  rintro (_ | i) k1 h1
  · rw [holds_panic]
    trivial
  obtain ⟨hi, -, s', trapframe, pagetable, hk1, ht, hempty, -⟩ := h1
  simp only [holds_bind, holds_update, holds_setProc]
  have hproc : k1.proc i = newProc k.nextpid trapframe pagetable := by
    rw [hk1]
    exact spawned_proc _ _ _ _
  have hphys : k1.phys = s' := by rw [hk1]; rfl
  rw [hproc]
  refine Created.of_slot ht.inv ?_ (ht.refreed.trans h.refreed) hi hproc ?_ (hphys ▸ hempty)
  · rw [ht.bounds.trampoline, ht.bounds.kend]
    exact h.trampoline
  · intro j hji
    rw [hk1, spawned_proc_ne k hji]
    exact h.procs j

theorem forkret_spec (h : Created k) {init : Option (List UInt8)} :
    (forkret init).Holds k (fun _ k' => Started k') (fun _ => True) := by
  have hused : (k.proc k.initproc).state ≠ .UNUSED := by
    rw [h.running]
    decide
  rw [forkret, holds_bind, holds_read, holds_bind]
  have hargs : ∀ str ∈ [initPath], str.length < 4096 := by
    intro str hstr
    rw [mem_singleton.mp hstr]
    decide
  refine (kexec_spec h.inv h.slot hused hargs (fun _ _ => fullOwn_user)
    fun _ _ => fullOwn_low).mono ?_ (by simp)
  rintro r k1 (⟨rfl, _⟩ | ⟨bytes, img, sp, argc, s', root, -, -, rfl, rfl, -, ht, hshows, -⟩)
  · rw [if_pos rfl, holds_panic]
    trivial
  rw [if_neg (by omega), holds_pure]
  have hro : ROVPN < TFVPN := by decide
  have hsh : SHVPN < TFVPN := by decide
  have hlost : lostPages k.phys.mem (k.proc k.initproc).pagetable
      (fullOwn k.initproc (k.proc k.initproc).sz) = [] := by
    rw [lostPages, leafOwned_of_none (h.empty _ hro), leafOwned_of_none (h.empty _ hsh)]
    rfl
  rw [hlost, nil_append] at ht
  refine ⟨ht.inv, ?_, ht.refreed.trans h.refreed, h.slot, ?_, ?_, ?_, img, ?_, ?_⟩
  · have htext := h.text
    rw [← ht.bounds.trampoline, ← ht.bounds.kend] at htext
    exact htext
  · exact (congrArg Proc.state (putSlot_proc _ _ _ _)).trans h.running
  · intro j hji
    exact (putSlot_proc_ne k hji _ _).trans (h.alone j hji)
  · exact (congrArg Proc.hasRegion (putSlot_proc _ _ _ _)).trans h.region
  · exact congrArg Proc.sz (putSlot_proc _ _ _ _)
  · have htable := congrArg Proc.pagetable (putSlot_proc k k.initproc s'
      { k.proc k.initproc with pagetable := root, sz := img.sz })
    exact htable ▸ hshows

theorem Booted.started (h : Booted k) : Started k := by
  obtain ⟨k0, init, hbare, hboot⟩ := h
  have hspec : (boot init).Holds k0 (fun _ k' => Started k') (fun _ => True) := by
    rw [boot, holds_bind]
    exact (userinit_spec hbare).imp fun _ _ h1 => forkret_spec h1
  exact hspec.of_ok hboot

/-- What holds in every state of a run in which no page is shared. -/
structure Sound (held : List Nat) (k : Kernel) : Prop where
  inv : KInv fullOwn held k
  text : k.phys.trampoline < k.phys.kend
  refreed : k.phys.refreed = false

/-! ## A small machine -/

/-- A program without segments: an ELF header and nothing else. -/
def emptyElf : List UInt8 :=
  [0x7f, 0x45, 0x4c, 0x46] ++ List.replicate 60 0

/-- A machine with a hundred free pages and no process. -/
def smallKernel : Kernel where
  phys := {
    mem := fun _ => 0
    freelist := (List.range 100).map fun j => 0x80100000 + j * 4096
    refreed := false
    kend := 0x80100000
    phystop := PHYSTOP
    trampoline := 0x80007000 }
  proc := fun _ => freedProc
  nextpid := 1
  initproc := 0
  kbufs := []

theorem smallKernel_bare : Bare smallKernel where
  good := by
    have hpages : smallKernel.phys.freelist ++ smallKernel.kbufs =
        (List.range 100).map fun j => 0x80100000 + j * 4096 := append_nil _
    rw [hpages]
    refine ⟨nodup_range.map fun a b hab => ?_, ?_⟩
    · have heq : 0x80100000 + a * 4096 = 0x80100000 + b * 4096 := hab
      omega
    · intro pg hpg
      obtain ⟨j, hj, rfl⟩ := mem_map.mp hpg
      rw [mem_range] at hj
      have htop : PHYSTOP = 0x88000000 := rfl
      refine ⟨by omega, ?_, ?_⟩
      · change 0x80100000 ≤ _
        omega
      · change _ < PHYSTOP
        omega
  low := by decide
  high := by decide
  phystop := rfl
  trampoline := by decide
  refreed := rfl
  procs := fun _ => rfl

/-- The small machine builds the image of the empty program for its first process. -/
def buildsInit : Bool :=
  match userinit smallKernel with
  | .ok _ k =>
    match procPagetable (k.proc k.initproc).trapframe k.phys with
    | .ok (some root) s1 =>
      match buildImage (k.proc k.initproc).sz (k.proc k.initproc).pagetable root emptyElf
        (parseElfhdr (readi emptyElf 0 elfhdrSize)) [initPath] s1 with
      | .ok (.ok (sz, _, _)) s2 =>
        sz == 8192 && decide (80 ≤ s2.freelist.length) && k.initproc == 0 &&
          k.nextpid == 2 && (k.proc k.initproc).pid == 1
      | _ => false
    | _ => false
  | _ => false

theorem buildsInit_true : buildsInit = true := by
  decide +kernel

/-- The state in which the small machine has booted. -/
structure SmallBooted (k : Kernel) : Prop where
  booted : Booted k
  initproc : k.initproc = 0
  sz : (k.proc 0).sz = 8192
  free : 80 ≤ k.phys.freelist.length
  nextpid : k.nextpid = 2
  pid : (k.proc 0).pid = 1

namespace SmallBooted

theorem running (h : SmallBooted k) : (k.proc 0).state = .RUNNABLE := by
  have hrun := h.booted.started.running
  rwa [h.initproc] at hrun

theorem region (h : SmallBooted k) : (k.proc 0).hasRegion = false := by
  have hregion := h.booted.started.region
  rwa [h.initproc] at hregion

theorem acts (h : SmallBooted k) : Acts fullOwn [] k 0 :=
  h.booted.started.inv.acts (by decide) h.running

/-- A first `mapzero` of one page. -/
theorem mapzero (h : SmallBooted k) : k.next (0, .mapzero 4096) =
    some (putSlot k 0 k.phys { k.proc 0 with
      hasRegion := true
      region := ⟨regionStart, 4096⟩ }) := by
  have hsize : regionSize (argint 4096) = some 4096 := by decide
  obtain ⟨r, k', hnext, hk'⟩ := Kernel.next_of_holds (c := .mapzero 4096) rfl (by decide)
    h.running (sysMapzero_spec h.acts)
  rw [hsize, h.region] at hk'
  obtain ⟨hbad | hbad, _⟩ | ⟨size, _, hsize', _, rfl, _⟩ := hk'
  · cases hbad
  · cases hbad
  · cases hsize'
    exact hnext

end SmallBooted

theorem small_boots : ∃ k, SmallBooted k := by
  have hcheck := buildsInit_true
  rw [buildsInit] at hcheck
  split at hcheck
  · rename_i k hinit
    have hcreated := (userinit_spec smallKernel_bare).of_ok hinit
    split at hcheck
    · rename_i root s1 htable
      split at hcheck
      · rename_i sz sp argc s2 hbuild
        simp only [Bool.and_eq_true, beq_iff_eq, decide_eq_true_eq] at hcheck
        obtain ⟨⟨⟨⟨hsz, hfree⟩, hslot⟩, hnext⟩, hpid⟩ := hcheck
        have hused : (k.proc k.initproc).state ≠ .UNUSED := by
          rw [hcreated.running]
          decide
        obtain ⟨s', hexec, hcount⟩ := kexec_builds hcreated.inv hcreated.slot hused (by decide)
          (fun _ _ => fullOwn_user) (fun _ _ => fullOwn_low) ⟨by decide, by decide +kernel⟩
          ⟨s1, htable, hbuild⟩ fun vpn hun => hun.2.2.2.2 (hcreated.empty vpn hun.2.1)
        have hboot : boot (some emptyElf) smallKernel = .ok ⟨⟩ (putSlot k k.initproc s'
            { k.proc k.initproc with pagetable := root, sz := sz }) := by
          change Prog.andThen userinit _ smallKernel = _
          rw [Prog.andThen, hinit]
          change Prog.andThen (kexec k.initproc (some emptyElf) [initPath]) _ k = _
          rw [Prog.andThen, hexec]
          dsimp only
          rw [if_neg (by omega)]
          rfl
        rw [hslot] at hboot hpid
        refine ⟨_, ⟨smallKernel, some emptyElf, smallKernel_bare, hboot⟩, hslot, ?_, ?_, hnext, ?_⟩
        · rw [putSlot_proc]
          exact hsz
        · exact hfree.trans hcount
        · rw [putSlot_proc]
          exact hpid
      · cases hcheck
    · cases hcheck
  · cases hcheck

end Machine

end EAFITos
