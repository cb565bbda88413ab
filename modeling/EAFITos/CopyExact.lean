/-
`copyin` and `copyout` are exact: they succeed when every page of the range can be reached and
memory suffices for those that are still lazy, and then move precisely the bytes asked for.
-/
import EAFITos.System

namespace EAFITos

open List Prog Option

variable {flag vpn : Nat} {ok : Prop}

variable {s s' s1 : Phys} {root psz a len n : Nat} {keep : Nat → Bool} {held : List Nat}

variable {pte dst : Nat} {k : Kernel}

/-- The pages that overlap `[a, a + len)`. -/
def pagesOf (a len : Nat) : Finset Nat := (Finset.Ico a (a + len)).image (· / 4096)

theorem mem_pagesOf : vpn ∈ pagesOf a len ↔ ∃ b, a ≤ b ∧ b < a + len ∧ b / 4096 = vpn := by
  simp only [pagesOf, Finset.mem_image, Finset.mem_Ico, and_assoc]

theorem pagesOf_zero (a : Nat) : pagesOf a 0 = ∅ := by
  rw [pagesOf, Nat.add_zero, Finset.Ico_self, Finset.image_empty]

theorem first_mem_pagesOf (hlen : 0 < len) : a / 4096 ∈ pagesOf a len :=
  mem_pagesOf.mpr ⟨a, le_refl a, by omega, rfl⟩

theorem pagesOf_lt (hhi : a + len ≤ 2 ^ 38) : ∀ vpn ∈ pagesOf a len, vpn < 512 ^ 3 := by
  intro vpn hvpn
  obtain ⟨b, -, hb, rfl⟩ := mem_pagesOf.mp hvpn
  omega

theorem pagesOf_next (hlen : 0 < len) (hn : min (4096 - a % 4096) len = n) :
    pagesOf a len = insert (a / 4096) (pagesOf (a / 4096 * 4096 + 4096) (len - n)) := by
  ext vpn
  rw [Finset.mem_insert, mem_pagesOf, mem_pagesOf]
  constructor
  · rintro ⟨b, hlo, hhi, rfl⟩
    by_cases heq : b / 4096 = a / 4096
    · exact Or.inl heq
    · exact Or.inr ⟨b, by omega, by omega, rfl⟩
  · rintro (rfl | ⟨b, hlo, hhi, rfl⟩)
    · exact ⟨a, le_refl a, by omega, rfl⟩
    · exact ⟨b, by omega, by omega, rfl⟩

/-- The kernel can reach every page of a range for `flag`: it is mapped with `PTE_U` and
`flag`, or it lies below the size and there is memory to materialise it. -/
structure Accessible (s : Phys) (root psz flag a len : Nat) : Prop where
  touch : ∀ vpn ∈ pagesOf a len, CanTouch s.mem root psz flag vpn
  memory : demand s.mem root (pagesOf a len) ≤ s.freelist.length

/-- A copy that has ended as `ok` says had the memory for it, or met an obstacle. -/
structure Funded (s : Phys) (root psz flag a len : Nat) (ok : Prop) : Prop where
  paid : ok → demand s.mem root (pagesOf a len) ≤ s.freelist.length
  why : ¬ ok → (∃ vpn ∈ pagesOf a len, ¬ CanTouch s.mem root psz flag vpn) ∨
    s.freelist.length < demand s.mem root (pagesOf a len)

theorem funded_zero (s : Phys) (root psz flag a : Nat) (hok : ok) :
    Funded s root psz flag a 0 ok := by
  refine ⟨fun _ => ?_, fun hnot => absurd hok hnot⟩
  rw [pagesOf_zero]
  exact Nat.zero_le _

/-- The first page is the obstacle. -/
theorem funded_fail (hok : ¬ ok) (hlen : 0 < len)
    (hwhy : ¬ CanTouch s.mem root psz flag (a / 4096) ∨
      s.freelist.length < need s.mem root (a / 4096)) : Funded s root psz flag a len ok := by
  refine ⟨fun h => absurd h hok, fun _ => ?_⟩
  rcases hwhy with hblocked | hfew
  · exact Or.inl ⟨_, first_mem_pagesOf hlen, hblocked⟩
  · exact Or.inr (Nat.lt_of_lt_of_le hfew (need_le_demand (first_mem_pagesOf hlen)))

/-- The first page has been materialised, and the rest of the range is known. -/
theorem Funded.cons (hlen : 0 < len) (hn : min (4096 - a % 4096) len = n) (hhi : a + len ≤ 2 ^ 38)
    (hflag : flag < 1024) (hfault : hasFlag faultPerm flag = true)
    (hfirst : Materialised s1.mem s.mem root (a / 4096))
    (hcount : s.freelist.length = s1.freelist.length + need s.mem root (a / 4096))
    (hleaf : LeafFaulted s1 s root psz)
    (hrest : Funded s1 root psz flag (a / 4096 * 4096 + 4096) (len - n) ok) :
    Funded s root psz flag a len ok := by
  have hpages := pagesOf_next hlen hn
  have hlow : ∀ vpn ∈ pagesOf (a / 4096 * 4096 + 4096) (len - n), vpn < 512 ^ 3 := by
    refine pagesOf_lt ?_
    omega
  have hdemand : demand s.mem root (pagesOf a len) = need s.mem root (a / 4096) +
      demand s1.mem root (pagesOf (a / 4096 * 4096 + 4096) (len - n)) := by
    rw [hpages, hfirst.demand hlow]
  refine ⟨fun hok => ?_, fun hnot => ?_⟩
  · have := hrest.paid hok
    omega
  · rcases hrest.why hnot with ⟨vpn, hvpn, hblocked⟩ | hfew
    · refine Or.inl ⟨vpn, ?_, ?_⟩
      · rw [hpages]
        exact Finset.mem_insert_of_mem hvpn
      · rwa [← hleaf.canTouch_iff hflag hfault]
    · right
      omega

theorem CanTouch.congr {m m' : ByteMem} (h : CanTouch m root psz flag vpn)
    (hleaf : leafPte m' root vpn = leafPte m root vpn) : CanTouch m' root psz flag vpn :=
  ⟨h.low, fun pte hpte => h.mapped pte (hleaf ▸ hpte), fun hnone => h.lazy (hleaf ▸ hnone)⟩

/-- Only the tables and the length of the free list matter. -/
theorem Funded.congr (h : Funded s1 root psz flag a len ok) (hhi : a + len ≤ 2 ^ 38)
    (hsame : ∀ pg ∈ tablePages s.mem root, SamePage s1.mem s.mem pg)
    (hlist : s1.freelist = s.freelist) : Funded s root psz flag a len ok := by
  have hdemand := demand_congr hsame (pagesOf_lt hhi)
  refine ⟨fun hok => ?_, fun hnot => ?_⟩
  · rw [← hdemand, ← hlist]
    exact h.paid hok
  · rcases h.why hnot with ⟨vpn, hvpn, hblocked⟩ | hfew
    · refine Or.inl ⟨vpn, hvpn, fun hcan => hblocked (hcan.congr ?_)⟩
      exact leafPte_congr hsame (pagesOf_lt hhi vpn hvpn)
    · rw [hdemand, hlist] at hfew
      exact Or.inr hfew

/-- `copyin` in terms of the memory it takes. -/
theorem copyinLoop_funded (fuel : Nat) (henv : UserEnv s root keep held psz)
    (hfuel : len ≤ fuel) (hhi : 0 < len → a + len ≤ 2 ^ 38) :
    (copyinLoop psz root root fuel a len).Holds s
      (fun r _ => Funded s root psz PTE_U a len (r.isSome = true)) (fun _ => True) := by
  induction fuel generalizing s a len with
  | zero =>
    obtain rfl : len = 0 := Nat.le_zero.mp hfuel
    rw [copyinLoop, holds_pure]
    exact funded_zero s root psz PTE_U a rfl
  | succ fuel ih =>
    cases len with
    | zero =>
      rw [copyinLoop, holds_pure]
      exact funded_zero s root psz PTE_U a rfl
    | succ len =>
      have hdown : PGROUNDDOWN a = a / 4096 * 4096 := rfl
      have hvpn : PGROUNDDOWN a / 4096 = a / 4096 := by omega
      have hpos : 0 < len + 1 := Nat.succ_pos len
      replace hhi := hhi hpos
      rw [copyinLoop, copyinPage, holds_bind]
      refine ((userPage_spec henv (PGROUNDDOWN_mod a)).and
        (userPage_demand henv (PGROUNDDOWN_mod a))).mono ?_ (by simp)
      rintro r s1 ⟨⟨hmoved, hfaulted, -, -, -⟩, hfail, hok⟩
      rw [hvpn] at hfail hok
      cases r with
      | none =>
        rw [holds_pure]
        exact funded_fail (by rintro ⟨⟩) hpos (hfail rfl)
      | some pa =>
        obtain ⟨hfirst, hcount⟩ := hok pa rfl
        have hoff : a - PGROUNDDOWN a = a % 4096 := by omega
        have hpages : PGSIZE - a % 4096 = 4096 - a % 4096 := rfl
        have hnext : PGROUNDDOWN a + PGSIZE = a / 4096 * 4096 + 4096 := rfl
        simp only [holds_bind, holds_read]
        rw [hoff, hpages, hnext]
        generalize hn : min (4096 - a % 4096) (len + 1) = n
        refine (ih (henv.moved hmoved hfaulted.leaf) (by omega) fun _ => by omega).imp ?_
        intro r' s' hrest
        have hall := Funded.cons hpos hn hhi (by decide) (by decide) hfirst hcount
          hfaulted.leaf hrest
        cases r' with
        | none =>
          rw [holds_pure]
          exact hall
        | some rest =>
          rw [holds_pure]
          exact hall

theorem UserEnv.store_tables (henv : UserEnv s root keep held psz) {bytes : List UInt8}
    (hdst : dst / 4096 < 512 ^ 3) (hpte : leafPte s.mem root (dst / 4096) = some pte)
    (huser : hasFlag pte PTE_U = true) (hfit : dst % 4096 + bytes.length ≤ 4096) :
    ∀ pg ∈ tablePages s.mem root,
      SamePage (s.mem.storeBytes (PTE2PA pte + dst % 4096) bytes) s.mem pg := by
  intro pg hpg
  have hne : pg ≠ PTE2PA pte := by
    rintro rfl
    obtain ⟨hleaf, hheld⟩ := henv.sep.disjoint.2.2.2.2.2.1 _ hpg
    rcases henv.pages _ pte hdst hpte huser with hkeep | hin
    · exact hleaf (henv.sep.leafHeap hdst hkeep hpte).1
    · exact hheld hin
  have happart := pages_apart (henv.sep.inv.table_heap hpg).1 (PTE2PA_mod pte) hne
  exact ByteMem.storeBytes_agreeOn s.mem (by omega)

theorem copyoutLoop_funded (fuel : Nat) {src : List UInt8} (henv : UserEnv s root keep held psz)
    (hfuel : src.length ≤ fuel) (hhi : 0 < src.length → dst + src.length ≤ 2 ^ 38) :
    (copyoutLoop psz root root fuel dst src).Holds s
      (fun r _ => Funded s root psz PTE_W dst src.length (r = 0)) (fun _ => True) := by
  induction fuel generalizing s dst src with
  | zero =>
    obtain rfl : src = [] := length_eq_zero_iff.mp (Nat.le_zero.mp hfuel)
    rw [copyoutLoop, holds_pure]
    exact funded_zero s root psz PTE_W dst rfl
  | succ fuel ih =>
    cases src with
    | nil =>
      rw [copyoutLoop, holds_pure]
      exact funded_zero s root psz PTE_W dst rfl
    | cons b tail =>
      have hmax : MAXVA = 2 ^ 38 := rfl
      have hdown : PGROUNDDOWN dst = dst / 4096 * 4096 := rfl
      have hvpn : PGROUNDDOWN dst / 4096 = dst / 4096 := by omega
      have hpos : 0 < (b :: tail).length := Nat.succ_pos _
      replace hhi := hhi hpos
      rw [copyoutLoop, copyoutPage]
      generalize b :: tail = src at *
      rw [if_neg (by omega), holds_bind]
      refine ((userPage_spec henv (PGROUNDDOWN_mod dst)).and
        (userPage_demand henv (PGROUNDDOWN_mod dst))).mono ?_ (by simp)
      rintro r s1 ⟨⟨hmoved, hfaulted, -, -, hcases⟩, hfail, hok⟩
      rw [hvpn] at hfail hok hcases
      cases r with
      | none =>
        dsimp only
        rw [holds_pure]
        refine funded_fail (by decide) hpos ((hfail rfl).imp_left ?_)
        exact fun hblocked hcan => hblocked hcan.user
      | some pa =>
        obtain ⟨hfirst, hcount⟩ := hok pa rfl
        obtain ⟨pte, hr, hva, hpte, huser, -⟩ | ⟨hr, -⟩ := hcases
        swap
        · cases hr
        obtain rfl := some.inj hr
        have henv1 := henv.moved hmoved hfaulted.leaf
        dsimp only
        rw [holds_bind, holds_walk_noalloc hva]
        have hpte0 : leafPte s1.mem root (PGROUNDDOWN dst / 4096) = some pte := by
          rw [hvpn]
          exact hpte
        obtain ⟨slot, hslot, hload⟩ := pteSlot_of_leaf hpte0
        rw [hslot]
        rw [holds_bind, loadPte, holds_read, hload]
        by_cases hwrite : hasFlag pte PTE_W = false
        · rw [if_pos hwrite, holds_pure]
          refine funded_fail (by decide) hpos (Or.inl ?_)
          rw [← hfaulted.leaf.canTouch_iff (by decide) (by decide)]
          intro hcan
          rw [(hcan.mapped pte hpte).2] at hwrite
          cases hwrite
        · have hoff : dst - PGROUNDDOWN dst = dst % 4096 := by omega
          have hpages : PGSIZE - dst % 4096 = 4096 - dst % 4096 := rfl
          have hnext : PGROUNDDOWN dst + PGSIZE = dst / 4096 * 4096 + 4096 := rfl
          rw [if_neg hwrite, holds_bind, holds_update, hoff, hpages, hnext]
          generalize hn : min (4096 - dst % 4096) src.length = n
          have hdrop : (src.drop n).length = src.length - n := length_drop
          have hfit : dst % 4096 + (src.take n).length ≤ 4096 := by
            rw [length_take]
            omega
          obtain ⟨hmoved2, hleaves2, -⟩ := written_store henv1 (by omega) hpte huser hfit rfl
          have htables := henv1.store_tables (by omega) hpte huser hfit
          refine (ih (henv1.moved hmoved2 (LeafFaulted.of_same hleaves2)) (by omega)
            fun _ => by omega).imp ?_
          intro r' s' hrest
          rw [hdrop] at hrest
          exact Funded.cons hpos hn hhi (by decide) (by decide) hfirst hcount
            hfaulted.leaf (hrest.congr (by omega) htables rfl)

/-! ## The memory of a process -/

/-- The memory of a process is in order: its page table is well formed, and the pages of the
user are apart from each other and from those of the kernel. -/
structure UserMemory (s : Phys) (p : Proc) : Prop where
  live : Live s p
  sep : Sep s p.pagetable userVpn [p.trapframe]
  text : s.trampoline < s.kend

theorem Sep.sublist {held' : List Nat} (h : Sep s root keep held) (hsub : held'.Sublist held) :
    Sep s root keep held' := by
  have hledger : (ledger s root keep held').Sublist (ledger s root keep held) :=
    (((hsub.append_left _).append_left _).append_left _)
  exact ⟨h.inv, h.good.nodup.sublist hledger, fun pg hpg => h.good.heap pg (hledger.subset hpg)⟩

theorem Sound.userMemory {i : Nat} (h : Sound held k) (hi : i < NPROC)
    (hused : (k.proc i).state ≠ .UNUSED) : UserMemory k.phys (k.proc i) := ⟨h.inv.live i hi hused,
    (h.inv.sep hi hused).sublist (cons_sublist_cons.mpr (nil_sublist _)), h.text⟩

/-- The bytes of the user from `a` on; memory that is still lazy reads as zeros. -/
def userBytes (m : ByteMem) (root a len : Nat) : List UInt8 :=
  (List.range len).map fun i => byteAt m root (a + i)

/-- Pages that the user may not write keep their mapping and their bytes. -/
def Spared (s' s : Phys) (root : Nat) : Prop :=
  ∀ vpn pte, vpn < 512 ^ 3 → leafPte s.mem root vpn = some pte →
    (hasFlag pte PTE_W && hasFlag pte PTE_U) = false →
      leafPte s'.mem root vpn = some pte ∧ SamePage s'.mem s.mem (PTE2PA pte)

namespace UserMemory

variable {p : Proc}

theorem env (h : UserMemory s p) : UserEnv s p.pagetable userVpn [] p.sz where
  sep := h.sep.sublist (nil_sublist _)
  small := h.live.small
  owns := fun vpn hvpn => userVpn_iff.mpr (Nat.lt_of_lt_of_le hvpn (pgup_le h.live.small))
  user := fun vpn => userVpn_iff.mp
  pages := fun vpn pte hvpn hpte huser =>
    Or.inl (userVpn_iff.mpr (h.live.user_lt hvpn hpte huser))

/-- What can be reached is user memory. -/
theorem canTouch_lt (h : UserMemory s p) (hcan : CanTouch s.mem p.pagetable p.sz flag vpn) :
    vpn < TFVPN := by
  have hlow := hcan.low
  cases hleaf : leafPte s.mem p.pagetable vpn with
  | none => exact Nat.lt_of_lt_of_le (hcan.lazy hleaf) (pgup_le h.live.small)
  | some pte => exact h.live.user_lt (by omega) hleaf (hcan.mapped pte hleaf).1

/-- The pages of the trapframe and of the trampoline are out of reach. -/
theorem fixed_same (h : UserMemory s p) (hvpn : vpn < 512 ^ 3) (hge : TFVPN ≤ vpn)
    (hpte : leafPte s.mem p.pagetable vpn = some pte)
    (hmoved : Moved s' s p.pagetable userVpn [] []) : SamePage s'.mem s.mem (PTE2PA pte) := by
  refine hmoved.shift.frame _ (PTE2PA_mod pte) fun hin => ?_
  rcases h.live.leaf_fixed hvpn hge hpte with rfl | rfl
  · have hheap := h.sep.heldHeap (mem_singleton_self p.trapframe)
    rw [trapframePte, PTE2PA_mkPte hheap.1 (by decide)] at hin
    obtain ⟨-, -, -, -, hfree, htable, howned⟩ := h.sep.disjoint
    simp only [ledger, mem_append, not_mem_nil, or_false] at hin
    rcases hin with hin | hin | hin
    · exact (hfree _ hin).2.2 (mem_singleton_self _)
    · exact (htable _ hin).2 (mem_singleton_self _)
    · exact howned _ hin (mem_singleton_self _)
  · have hheap := h.env.sep.good.heap _ hin
    have hle : PTE2PA (trampolinePte s) ≤ s.trampoline := PTE2PA_mkPte_le (by decide)
    have htext := h.text
    have hkend := hheap.2.1
    omega

theorem user_same {root : Nat} (hpte : leafPte s.mem root vpn = some pte)
    (hpte' : leafPte s'.mem root vpn = some pte)
    (hbytes : ∀ b, b / 4096 = vpn → byteAt s'.mem root b = byteAt s.mem root b) :
    SamePage s'.mem s.mem (PTE2PA pte) := by
  intro b hlo hhi
  have hbyte := hbytes (vpn * 4096 + (b - PTE2PA pte)) (by omega)
  have hdiv : (vpn * 4096 + (b - PTE2PA pte)) / 4096 = vpn := by omega
  have hmod : (vpn * 4096 + (b - PTE2PA pte)) % 4096 = b - PTE2PA pte := by omega
  have haddr : PTE2PA pte + (b - PTE2PA pte) = b := by omega
  rw [byteAt_of_leaf (by rw [hdiv]; exact hpte'), byteAt_of_leaf (by rw [hdiv]; exact hpte), hmod,
    haddr] at hbyte
  exact hbyte

/-- A page that is spared: the fixed ones are out of reach, and the user's are not written. -/
theorem spared (h : UserMemory s p) (hmoved : Moved s' s p.pagetable userVpn [] [])
    (hleaf : LeafFaulted s' s p.pagetable p.sz)
    (hbytes : ∀ b, b / 4096 < TFVPN → byteAt s'.mem p.pagetable b ≠ byteAt s.mem p.pagetable b →
      CanTouch s.mem p.pagetable p.sz PTE_W (b / 4096)) : Spared s' s p.pagetable := by
  intro vpn pte hvpn hpte hflags
  have hpte' : leafPte s'.mem p.pagetable vpn = some pte := by
    rcases hleaf vpn hvpn with hsame | ⟨hnone, -⟩
    · exact hsame.trans hpte
    · rw [hpte] at hnone
      cases hnone
  refine ⟨hpte', ?_⟩
  by_cases hge : TFVPN ≤ vpn
  · exact h.fixed_same hvpn hge hpte hmoved
  · refine user_same hpte hpte' fun b hb => ?_
    by_contra hne
    have hcan := hbytes b (by omega) hne
    rw [hb] at hcan
    obtain ⟨huser, hwrite⟩ := hcan.mapped pte hpte
    rw [huser, hwrite] at hflags
    cases hflags

/-- A range that reaches beyond the address space has a page out of reach. -/
theorem exists_high (s : Phys) (p : Proc) (flag : Nat) {a len : Nat} (hlen : 0 < len)
    (hhi : 2 ^ 38 < a + len) :
    ∃ vpn ∈ pagesOf a len, ¬ CanTouch s.mem p.pagetable p.sz flag vpn := by
  refine ⟨(a + len - 1) / 4096, mem_pagesOf.mpr ⟨a + len - 1, by omega, by omega, rfl⟩,
    fun hcan => ?_⟩
  have := hcan.low
  omega

/-- A copy ends well exactly on an accessible range. -/
theorem accessible_iff {a len : Nat}
    (hfund : (0 < len → a + len ≤ 2 ^ 38) → Funded s p.pagetable p.sz flag a len ok)
    (hcan : ok → ∀ vpn ∈ pagesOf a len, CanTouch s.mem p.pagetable p.sz flag vpn) :
    ok ↔ Accessible s p.pagetable p.sz flag a len := by
  have hrange : (∀ vpn ∈ pagesOf a len, CanTouch s.mem p.pagetable p.sz flag vpn) →
      0 < len → a + len ≤ 2 ^ 38 := by
    intro htouch hlen
    by_contra hhi
    obtain ⟨vpn, hvpn, hblocked⟩ := exists_high s p flag hlen (Nat.lt_of_not_le hhi)
    exact hblocked (htouch vpn hvpn)
  constructor
  · exact fun hok => ⟨hcan hok, (hfund (hrange (hcan hok))).paid hok⟩
  · intro hacc
    by_contra hnot
    rcases (hfund (hrange hacc.touch)).why hnot with ⟨vpn, hvpn, hblocked⟩ | hfew
    · exact hblocked (hacc.touch vpn hvpn)
    · exact absurd hacc.memory (Nat.not_le.mpr hfew)

theorem copyin_exact (h : UserMemory s p) (src len : Nat) :
    (copyin p.sz p.pagetable p.pagetable src len).Holds s
      (fun r s' => (r.isSome = true ↔ Accessible s p.pagetable p.sz PTE_U src len) ∧
        (∀ bytes, r = some bytes → bytes = userBytes s.mem p.pagetable src len) ∧
        (∀ b, b < TRAPFRAME → byteAt s'.mem p.pagetable b = byteAt s.mem p.pagetable b) ∧
        Spared s' s p.pagetable) (fun _ => False) := by
  have htf : TRAPFRAME = TFVPN * 4096 := rfl
  have hfunded : (copyin p.sz p.pagetable p.pagetable src len).Holds s
      (fun r _ => (0 < len → src + len ≤ 2 ^ 38) →
        Funded s p.pagetable p.sz PTE_U src len (r.isSome = true)) (fun _ => True) := by
    by_cases hle : 0 < len → src + len ≤ 2 ^ 38
    · exact (copyinLoop_funded len h.env (le_refl _) hle).imp fun _ _ hfund _ => hfund
    · exact (copyin_spec h.env).mono (fun _ _ _ hle' => absurd hle' hle) (fun _ _ => trivial)
  refine ((copyin_spec h.env).and hfunded).mono ?_ (fun _ hbad => hbad.1)
  rintro r s' ⟨⟨hmoved, hfaulted, hsame, -, hcases⟩, hfund⟩
  have hend : ∀ bytes, r = some bytes → bytes.length = len ∧
      (∀ i, i < len → userVpn ((src + i) / 4096) = true →
        bytes.getD i 0 = byteAt s.mem p.pagetable (src + i)) ∧
      ∀ b, src ≤ b → b < src + len → CanTouch s.mem p.pagetable p.sz PTE_U (b / 4096) := by
    intro bytes hr
    rcases hcases with ⟨bytes', hr', hrest⟩ | ⟨hr', -⟩
    · rw [hr] at hr'
      obtain rfl := some.inj hr'
      exact hrest
    · rw [hr] at hr'
      cases hr'
  refine ⟨accessible_iff hfund fun hok vpn hvpn => ?_, fun bytes hr => ?_, fun b hb => ?_, ?_⟩
  · obtain ⟨bytes, hr⟩ := isSome_iff_exists.mp hok
    obtain ⟨b, hlo, hhi, rfl⟩ := mem_pagesOf.mp hvpn
    exact (hend bytes hr).2.2 b hlo hhi
  · obtain ⟨hlen, hbytes, hcan⟩ := hend bytes hr
    refine ext_getElem ?_ fun i hi hi' => ?_
    · rw [hlen, userBytes, length_map, length_range]
    · have hlt : i < len := hlen ▸ hi
      have hvpn := h.canTouch_lt (hcan (src + i) (by omega) (by omega))
      have hbyte := hbytes i hlt (userVpn_iff.mpr hvpn)
      rw [getD_eq_getElem _ _ hi] at hbyte
      simp only [userBytes, getElem_map, getElem_range]
      exact hbyte
  · exact hsame b (userVpn_iff.mpr (by omega))
  · refine h.spared hmoved hfaulted.leaf fun b hb hne => absurd ?_ hne
    exact hsame b (userVpn_iff.mpr hb)

/-- `copyout` succeeds exactly on a range that can be written, and then changes its bytes
alone. -/
theorem copyout_exact (h : UserMemory s p) (dst : Nat) (src : List UInt8) :
    (copyout p.sz p.pagetable p.pagetable dst src).Holds s (fun r s' => (r = 0 ∨ r = -1) ∧
        (r = 0 ↔ Accessible s p.pagetable p.sz PTE_W dst src.length) ∧
        (r = 0 → ∀ b, b < TRAPFRAME → byteAt s'.mem p.pagetable b =
          if dst ≤ b ∧ b < dst + src.length then src.getD (b - dst) 0
          else byteAt s.mem p.pagetable b) ∧ Spared s' s p.pagetable) (fun _ => False) := by
  have htf : TRAPFRAME = TFVPN * 4096 := rfl
  have hfunded : (copyout p.sz p.pagetable p.pagetable dst src).Holds s
      (fun r _ => (0 < src.length → dst + src.length ≤ 2 ^ 38) →
        Funded s p.pagetable p.sz PTE_W dst src.length (r = 0)) (fun _ => True) := by
    by_cases hle : 0 < src.length → dst + src.length ≤ 2 ^ 38
    · exact (copyoutLoop_funded src.length h.env (le_refl _) hle).imp fun _ _ hfund _ => hfund
    · exact (copyout_spec h.env).mono (fun _ _ _ hle' => absurd hle' hle) (fun _ _ => trivial)
  refine ((copyout_spec h.env).and hfunded).mono ?_ (fun _ hbad => hbad.1)
  rintro r s' ⟨⟨hmoved, hfaulted, -, w, hw, hwritten, hcan, hcases⟩, hfund⟩
  have hall : r = 0 → w = src.length := by
    intro hr
    rcases hcases with ⟨-, hlen⟩ | ⟨hr', -⟩
    · exact hlen
    · rw [hr] at hr'
      cases hr'
  refine ⟨?_, accessible_iff hfund fun hok vpn hvpn => ?_, fun hr b hb => ?_, ?_⟩
  · rcases hcases with ⟨hr, -⟩ | ⟨hr, -⟩
    · exact Or.inl hr
    · exact Or.inr hr
  · obtain ⟨b, hlo, hhi, rfl⟩ := mem_pagesOf.mp hvpn
    exact hcan b hlo (by rw [hall hok]; exact hhi)
  · have hbyte := hwritten b (userVpn_iff.mpr (by omega))
    rwa [hall hr, take_length] at hbyte
  · refine h.spared hmoved hfaulted.leaf fun b hb hne => ?_
    have hbyte := hwritten b (userVpn_iff.mpr hb)
    split at hbyte
    · next hin =>
      rw [length_take_of_le hw] at hin
      exact hcan b hin.1 hin.2
    · exact absurd hbyte hne

end UserMemory

/-- `copyin` and `copyout` on the memory of a process, for any address and length.  An address
beyond `MAXVA` ends the copy before the next one is formed, so none wraps. -/
theorem copies_are_exact {p : Proc} (h : UserMemory s p) :
    (∀ src len, (copyin p.sz p.pagetable p.pagetable src len).Holds s
      (fun r s' => (r.isSome = true ↔ Accessible s p.pagetable p.sz PTE_U src len) ∧
        (∀ bytes, r = some bytes → bytes = userBytes s.mem p.pagetable src len) ∧
        (∀ b, b < TRAPFRAME → byteAt s'.mem p.pagetable b = byteAt s.mem p.pagetable b) ∧
        Spared s' s p.pagetable) (fun _ => False)) ∧
    ∀ dst src, (copyout p.sz p.pagetable p.pagetable dst src).Holds s
      (fun r s' => (r = 0 ∨ r = -1) ∧
        (r = 0 ↔ Accessible s p.pagetable p.sz PTE_W dst src.length) ∧
        (r = 0 → ∀ b, b < TRAPFRAME → byteAt s'.mem p.pagetable b =
          if dst ≤ b ∧ b < dst + src.length then src.getD (b - dst) 0
          else byteAt s.mem p.pagetable b) ∧
        Spared s' s p.pagetable) (fun _ => False) :=
  ⟨h.copyin_exact, h.copyout_exact⟩

theorem SmallBooted.userMemory (h : SmallBooted k) : UserMemory k.phys (k.proc 0) :=
  Sound.userMemory ⟨h.booted.started.inv, h.booted.started.text, h.booted.started.refreed⟩
    (by decide) (by rw [h.running]; decide)

/-- The first process of the small machine with one lazy page above its image. -/
theorem SmallBooted.lazy (h : SmallBooted k) :
    UserMemory k.phys { k.proc 0 with sz := 12288 } ∧
      leafPte k.phys.mem (k.proc 0).pagetable 2 = none := by
  have hmemory := h.userMemory
  have hlive := hmemory.live
  have hsmall : 12288 ≤ TRAPFRAME := by decide
  refine ⟨⟨⟨hlive.table, hlive.frame, hlive.inv, hlive.framed, hsmall,
    ⟨hlive.region.start, hlive.region.size, hlive.region.fits⟩, hlive.alive⟩, hmemory.sep,
    hmemory.text⟩, ?_⟩
  obtain ⟨img, hsz, hshows⟩ := h.booted.started.image
  rw [h.initproc] at hsz hshows
  rw [h.sz] at hsz
  refine hshows.empty 2 ?_ (by decide)
  rw [← hsz]
  decide

/-- There a copy to the lazy page goes through. -/
theorem copies_are_exact_small : ∃ (s : Phys) (p : Proc), UserMemory s p ∧
    leafPte s.mem p.pagetable 2 = none ∧
    (copyout p.sz p.pagetable p.pagetable 8192 [1, 2]).Holds s
      (fun r s' => r = 0 ∧ byteAt s'.mem p.pagetable 8193 = 2) (fun _ => False) := by
  obtain ⟨k, hk⟩ := small_boots
  obtain ⟨hmemory, hnone⟩ := hk.lazy
  refine ⟨k.phys, { k.proc 0 with sz := 12288 }, hmemory, hnone, ?_⟩
  refine ((copies_are_exact hmemory).2 8192 [1, 2]).imp fun r s' hpost => ?_
  have hpages : pagesOf 8192 [(1 : UInt8), 2].length = {2} := by decide
  have hr : r = 0 := by
    refine hpost.2.1.mpr ⟨fun vpn hvpn => ?_, ?_⟩
    · rw [hpages, Finset.mem_singleton] at hvpn
      subst hvpn
      have hlow : 2 < pgup 12288 := by decide
      refine ⟨by decide, fun pte hpte => ?_, fun _ => hlow⟩
      rw [hnone] at hpte
      cases hpte
    · rw [hpages]
      have hle := demand_le k.phys.mem (k.proc 0).pagetable {2}
      have hfree := hk.free
      rw [Finset.card_singleton] at hle
      dsimp only
      omega
  refine ⟨hr, ?_⟩
  rw [hpost.2.2.1 hr 8193 (by decide)]
  rfl

end EAFITos
