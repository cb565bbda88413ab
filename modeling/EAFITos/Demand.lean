/-
The memory that it takes to materialise user pages: the pages themselves, and the page-table
pages that are missing on the way to them.
-/
import EAFITos.UserCopy

namespace EAFITos

open Prog Option Finset List

variable {m m' : ByteMem} {vpn : Nat}

variable {s s' s'' : Phys} {root va : Nat} {keep : Nat → Bool} {held : List Nat}

variable {pa pte : Nat} {vpns : Finset Nat}

variable {m'' : ByteMem} {perm psz : Nat} {rest : List Nat}

/-! ## Which tables a walk adds -/

/-- The tables off the path to `va` are the same in both memories. -/
structure OffPath (m' m : ByteMem) (root va : Nat) : Prop where
  one : ∀ x, x < 512 ^ 1 → x ≠ va / 2 ^ 30 → node m' root 1 x = node m root 1 x
  two : ∀ x, x < 512 ^ 2 → x ≠ va / 2 ^ 21 → node m' root 2 x = node m root 2 x

theorem OffPath.refl (m : ByteMem) (root va : Nat) : OffPath m m root va :=
  ⟨fun _ _ _ => rfl, fun _ _ _ => rfl⟩

theorem OffPath.trans (h' : OffPath m'' m' root va) (h : OffPath m' m root va) :
    OffPath m'' m root va := ⟨fun x hx hne => (h'.one x hx hne).trans (h.one x hx hne),
    fun x hx hne => (h'.two x hx hne).trans (h.two x hx hne)⟩

theorem OffPath.of_nodes (h : ∀ d x, d ≤ 2 → x < 512 ^ d → node m' root d x = node m root d x) :
    OffPath m' m root va := ⟨fun x hx _ => h 1 x (by decide) hx, fun x hx _ => h 2 x (by decide) hx⟩

theorem TableLinked.offPath {level new : Nat} (hlevel : level < 2)
    (h : TableLinked s' s root (2 - level) (va / 2 ^ (12 + 9 * (level + 1))) new) :
    OffPath s'.mem s.mem root va := by
  obtain rfl | rfl : level = 0 ∨ level = 1 := by omega
  · refine ⟨fun x hx _ => ?_, fun x hx hne => ?_⟩
    · rw [h.node_eq 1 x (by decide) hx, if_neg (by omega)]
    · rw [h.node_eq 2 x (by decide) hx, if_neg fun heq => hne heq.2]
  · refine ⟨fun x hx hne => ?_, fun x hx _ => ?_⟩
    · rw [h.node_eq 1 x (by decide) hx, if_neg fun heq => hne heq.2]
    · rw [h.node_eq 2 x (by decide) hx, if_neg (by omega)]

theorem walkLoop_offPath (hva : va < MAXVA) (level : Nat) (hlevel : level ≤ 2)
    (hinv : PtTree s root) {pagetable : Nat}
    (hat : node s.mem root (2 - level) (va / 2 ^ (12 + 9 * (level + 1))) = some pagetable) :
    (walkLoop va true level pagetable).Holds s
      (fun _ s' => OffPath s'.mem s.mem root va) (fun _ => False) := by
  induction level generalizing s pagetable with
  | zero =>
    rw [walkLoop, holds_pure]
    exact OffPath.refl _ _ _
  | succ level ih =>
    have hdepth : 2 - (level + 1) = 1 - level := by omega
    rw [hdepth] at hat
    have hstep := node_step (by omega) hat
    have hpte : s.mem.loadLE (pagetable + 8 * PX (level + 1) va) 8 =
        pteAt s.mem pagetable (PX (level + 1) va) := rfl
    rw [walkLoop, holds_bind, loadPte, holds_read, hpte]
    simp only [hasFlag_V, decide_eq_true_eq, holds_ite, Bool.true_eq_false,
      false_implies, not_false_eq_true, true_implies, true_and, holds_bind]
    constructor
    · intro hvalid
      rw [child_of_valid hvalid] at hstep
      exact ih (by omega) hinv hstep
    · intro hinvalid
      have hempty := child_of_invalid hinvalid
      rw [holds_kalloc]
      constructor
      · intro _
        rw [holds_pure]
        exact OffPath.refl _ _ _
      · intro new rest hfree
        simp only [holds_bind, memset, holds_update, storePte, PGSIZE]
        have hlinked := tableLinked_path hinv hva (by omega) hat hempty hfree rfl
        obtain ⟨hgrown, _, hnode, _⟩ := grown_link hinv hva (by omega) hat hempty hfree rfl
        exact (ih (by omega) hgrown.inv hnode).imp fun _ s' h =>
          h.trans (hlinked.offPath (by omega))

theorem walk_offPath (hinv : PtTree s root) (hva : va < MAXVA) :
    (walk root va true).Holds s (fun _ s' => OffPath s'.mem s.mem root va)
      (fun _ => False) := by
  rw [walk, if_neg (by omega)]
  exact walkLoop_offPath hva 2 (le_refl 2) hinv (node_zero s.mem root _)

theorem mappages_offPath (hinv : PtTree s root) (hva : va < MAXVA) (halign : va % 4096 = 0)
    (hpa : pa < 2 ^ 64) (hperm : perm < 1024) :
    (mappages root va PGSIZE pa perm).Holds s (fun _ s' => OffPath s'.mem s.mem root va)
      (fun _ => True) := by
  have hva' : va < 2 ^ 38 := hva
  have hvpn : va / 4096 < 512 ^ 3 := by omega
  have hdigits : va / 4096 / 512 = va / 2 ^ 21 := div_pow_succ va 12
  have hpages : PGSIZE / PGSIZE = 1 := rfl
  rw [mappages, if_neg (by simpa [PGSIZE] using halign), if_neg (by decide),
    if_neg (by decide), hpages, mappagesLoop, holds_bind]
  refine ((walk_alloc hinv hva).and (walk_offPath hinv hva)).mono ?_ (by simp)
  rintro r s1 ⟨⟨taken, hgrown, _, ⟨t, ht, hr, _⟩ | ⟨hr, _⟩⟩, hoff⟩
  · rw [hr]
    simp only [holds_bind, loadPte, holds_read, hasFlag_V, decide_eq_true_eq,
      holds_ite, holds_panic, storePte, holds_update, mappagesLoop,
      holds_pure, implies_true, true_and]
    intro _
    rw [← hdigits] at ht
    have hstored := leafStored_storeLE hgrown.inv hvpn ht (mkPte_lt hpa hperm)
    rw [PX_zero]
    exact (OffPath.of_nodes hstored.node_eq).trans hoff
  · rw [hr]
    dsimp only
    rw [holds_pure]
    exact hoff

/-! ## Demand -/

/-- The pages that it takes to materialise the page `vpn`. -/
def need (m : ByteMem) (root vpn : Nat) : Nat :=
  if leafPte m root vpn = none then missing m root (vpn * 4096) + 1 else 0

/-- The pages that it takes to materialise a set of pages: those of them that are not
mapped, and the tables that are missing at both depths. -/
def demand (m : ByteMem) (root : Nat) (vpns : Finset Nat) : Nat :=
  (vpns.filter fun vpn => leafPte m root vpn = none).card +
    ((vpns.image (· / 512)).filter fun x => node m root 2 x = none).card +
    ((vpns.image (· / 512 ^ 2)).filter fun x => node m root 1 x = none).card

/-- From `m` to `m'` the page `vpn` is mapped if it was not, with the tables on its path, and
nothing else. -/
structure Materialised (m' m : ByteMem) (root vpn : Nat) : Prop where
  leaf : ∀ v, v < 512 ^ 3 → (leafPte m' root v = none ↔ leafPte m root v = none ∧ v ≠ vpn)
  two : ∀ x, x < 512 ^ 2 →
    (node m' root 2 x = none ↔ node m root 2 x = none ∧ x ≠ vpn / 512)
  one : ∀ x, x < 512 ^ 1 →
    (node m' root 1 x = none ↔ node m root 1 x = none ∧ x ≠ vpn / 512 ^ 2)

/-- A mapped page has its tables. -/
theorem node_of_leaf (h : leafPte m root vpn = some pte) :
    node m root 2 (vpn / 512) ≠ none ∧ node m root 1 (vpn / 512 ^ 2) ≠ none := by
  have htwo : node m root 2 (vpn / 512) ≠ none := by
    intro hnone
    rw [leafPte, hnone, bind_none] at h
    cases h
  refine ⟨htwo, fun hnone => htwo ?_⟩
  have hdigits : vpn / 512 / 512 = vpn / 512 ^ 2 := by omega
  rw [node_succ, hdigits, hnone, bind_none]

/-- A page that is mapped is there already. -/
theorem Materialised.of_mapped (h : leafPte m root vpn = some pte) :
    Materialised m m root vpn := by
  obtain ⟨htwo, hone⟩ := node_of_leaf h
  refine ⟨fun v _ => ⟨fun hv => ⟨hv, ?_⟩, And.left⟩, fun x _ => ⟨fun hx => ⟨hx, ?_⟩, And.left⟩,
    fun x _ => ⟨fun hx => ⟨hx, ?_⟩, And.left⟩⟩
  · rintro rfl
    rw [h] at hv
    cases hv
  · rintro rfl
    exact htwo hx
  · rintro rfl
    exact hone hx

/-- Only the tables matter. -/
theorem Materialised.congr (h : Materialised m' m root vpn)
    (hsame : ∀ pg ∈ tablePages m' root, SamePage m'' m' pg) : Materialised m'' m root vpn := by
  refine ⟨fun v hv => ?_, fun x hx => ?_, fun x hx => ?_⟩
  · rw [leafPte_congr hsame hv]
    exact h.leaf v hv
  · rw [node_congr hsame (by decide) hx]
    exact h.two x hx
  · rw [node_congr hsame (by decide) hx]
    exact h.one x hx

/-- A page that `mappages` has mapped. -/
theorem Materialised.of_offPath (hva : va < MAXVA) (hoff : OffPath m' m root va)
    (hleaf : ∀ vpn, vpn < 512 ^ 3 → leafPte m' root vpn =
      if vpn = va / 4096 then some pte else leafPte m root vpn) :
    Materialised m' m root (va / 4096) := by
  have hdigits2 : va / 4096 / 512 = va / 2 ^ 21 := div_pow_succ va 12
  have hdigits1 : va / 4096 / 512 ^ 2 = va / 2 ^ 30 := by
    rw [Nat.div_div_eq_div_mul]
    rfl
  have hself := hleaf (va / 4096) (vpn_lt hva)
  rw [if_pos rfl] at hself
  obtain ⟨htwo, hone⟩ := node_of_leaf hself
  refine ⟨fun v hv => ?_, fun x hx => ?_, fun x hx => ?_⟩
  · rw [hleaf v hv]
    split
    · next heq => exact ⟨nofun, fun hne => absurd heq hne.2⟩
    · next hne => exact ⟨fun hnone => ⟨hnone, hne⟩, And.left⟩
  · by_cases heq : x = va / 4096 / 512
    · subst heq
      exact ⟨fun hnone => absurd hnone htwo, fun hne => absurd rfl hne.2⟩
    · rw [hoff.two x hx (hdigits2 ▸ heq)]
      exact ⟨fun hnone => ⟨hnone, heq⟩, And.left⟩
  · by_cases heq : x = va / 4096 / 512 ^ 2
    · subst heq
      exact ⟨fun hnone => absurd hnone hone, fun hne => absurd rfl hne.2⟩
    · rw [hoff.one x hx (hdigits1 ▸ heq)]
      exact ⟨fun hnone => ⟨hnone, heq⟩, And.left⟩

/-- The count of a set with one more element, when this element is struck out of the property
afterwards. -/
theorem card_filter_insert {S : Finset Nat} {x : Nat} {p q : Nat → Prop} [DecidablePred p]
    [DecidablePred q] (hq : ∀ y ∈ S, q y ↔ p y ∧ y ≠ x) :
    ((insert x S).filter p).card = (if p x then 1 else 0) + (S.filter q).card := by
  have herase : S.filter q = (S.filter p).erase x := by
    ext y
    simp only [Finset.mem_filter, Finset.mem_erase]
    constructor
    · rintro ⟨hy, hqy⟩
      exact ⟨((hq y hy).mp hqy).2, hy, ((hq y hy).mp hqy).1⟩
    · rintro ⟨hne, hy, hpy⟩
      exact ⟨hy, (hq y hy).mpr ⟨hpy, hne⟩⟩
  rw [herase, Finset.filter_insert]
  by_cases hp : p x
  · rw [if_pos hp, if_pos hp, ← Finset.erase_insert_eq_erase, Nat.add_comm,
      Finset.card_erase_add_one (Finset.mem_insert_self _ _)]
  · rw [if_neg hp, if_neg hp, Nat.zero_add, Finset.erase_eq_of_notMem]
    exact fun hx => hp (Finset.mem_filter.mp hx).2

theorem missing_vpn (m : ByteMem) (root vpn : Nat) :
    missing m root (vpn * 4096) = (if node m root 2 (vpn / 512) = none then 1 else 0) +
      if node m root 1 (vpn / 512 ^ 2) = none then 1 else 0 := by
  have htwo : vpn * 4096 / 2 ^ 21 = vpn / 512 := by omega
  have hone : vpn * 4096 / 2 ^ 30 = vpn / 512 ^ 2 := by omega
  rw [missing, htwo, hone, Nat.add_comm]

theorem missing_page (m : ByteMem) (root va : Nat) :
    missing m root (va / 4096 * 4096) = missing m root va := by
  have htwo : va / 4096 * 4096 / 2 ^ 21 = va / 2 ^ 21 := by omega
  have hone : va / 4096 * 4096 / 2 ^ 30 = va / 2 ^ 30 := by omega
  rw [missing, missing, htwo, hone]

/-- What a page needs, split by what has to be added. -/
theorem need_eq (m : ByteMem) (root vpn : Nat) :
    need m root vpn = (if leafPte m root vpn = none then 1 else 0) +
      (if node m root 2 (vpn / 512) = none then 1 else 0) +
      if node m root 1 (vpn / 512 ^ 2) = none then 1 else 0 := by
  cases hleaf : leafPte m root vpn with
  | none =>
    rw [need, if_pos hleaf, missing_vpn, if_pos rfl]
    omega
  | some pte =>
    obtain ⟨htwo, hone⟩ := node_of_leaf hleaf
    rw [need, if_neg (by rw [hleaf]; nofun), if_neg nofun, if_neg htwo, if_neg hone]

theorem need_le (m : ByteMem) (root vpn : Nat) : need m root vpn ≤ 3 := by
  have hle := missing_le m root (vpn * 4096)
  rw [need]
  split <;> omega

/-- With one page materialised, the others need so much less. -/
theorem Materialised.demand (h : Materialised m' m root vpn) (hlow : ∀ v ∈ vpns, v < 512 ^ 3) :
    EAFITos.demand m root (insert vpn vpns) = need m root vpn + EAFITos.demand m' root vpns := by
  have hleaf := card_filter_insert (S := vpns) (x := vpn)
    (p := fun v => leafPte m root v = none) (q := fun v => leafPte m' root v = none)
    fun v hv => h.leaf v (hlow v hv)
  have htwo := card_filter_insert (S := vpns.image (· / 512)) (x := vpn / 512)
    (p := fun x => node m root 2 x = none) (q := fun x => node m' root 2 x = none) (by
      intro x hx
      obtain ⟨v, hv, rfl⟩ := mem_image.mp hx
      have hlt := hlow v hv
      exact h.two (v / 512) (by omega))
  have hone := card_filter_insert (S := vpns.image (· / 512 ^ 2)) (x := vpn / 512 ^ 2)
    (p := fun x => node m root 1 x = none) (q := fun x => node m' root 1 x = none) (by
      intro x hx
      obtain ⟨v, hv, rfl⟩ := mem_image.mp hx
      have hlt := hlow v hv
      exact h.one (v / 512 ^ 2) (by omega))
  rw [EAFITos.demand, image_insert, image_insert, hleaf, htwo, hone, need_eq, EAFITos.demand]
  omega

theorem need_le_demand (h : vpn ∈ vpns) :
    need m root vpn ≤ demand m root vpns := by
  have hcard : ∀ (S : Finset Nat) (p : Nat → Prop) [DecidablePred p] (x : Nat), x ∈ S →
      (if p x then 1 else 0) ≤ (S.filter p).card := by
    intro S p _ x hx
    split
    · next hp => exact card_pos.mpr ⟨x, mem_filter.mpr ⟨hx, hp⟩⟩
    · exact Nat.zero_le _
  rw [need_eq, demand]
  have hleaf := hcard vpns (fun v => leafPte m root v = none) vpn h
  have htwo := hcard (vpns.image (· / 512)) (fun x => node m root 2 x = none) (vpn / 512)
    (mem_image_of_mem _ h)
  have hone := hcard (vpns.image (· / 512 ^ 2)) (fun x => node m root 1 x = none)
    (vpn / 512 ^ 2) (mem_image_of_mem _ h)
  omega

/-- Three pages for each of the set always suffice. -/
theorem demand_le (m : ByteMem) (root : Nat) (vpns : Finset Nat) :
    demand m root vpns ≤ 3 * vpns.card := by
  have hleaf := card_filter_le vpns fun v => leafPte m root v = none
  have htwo := card_filter_le (vpns.image (· / 512)) fun x => node m root 2 x = none
  have hone := card_filter_le (vpns.image (· / 512 ^ 2)) fun x => node m root 1 x = none
  have himage2 : (vpns.image (· / 512)).card ≤ vpns.card := card_image_le
  have himage1 : (vpns.image (· / 512 ^ 2)).card ≤ vpns.card := card_image_le
  rw [demand]
  omega

/-- Only the tables decide what is needed. -/
theorem demand_congr (hsame : ∀ pg ∈ tablePages m root, SamePage m' m pg)
    (hlow : ∀ v ∈ vpns, v < 512 ^ 3) :
    demand m' root vpns = demand m root vpns := by
  have hleaf : vpns.filter (fun v => leafPte m' root v = none) =
      vpns.filter fun v => leafPte m root v = none :=
    filter_congr fun v hv => by rw [leafPte_congr hsame (hlow v hv)]
  have htwo : (vpns.image (· / 512)).filter (fun x => node m' root 2 x = none) =
      (vpns.image (· / 512)).filter fun x => node m root 2 x = none := by
    refine filter_congr fun x hx => ?_
    obtain ⟨v, hv, rfl⟩ := mem_image.mp hx
    have hlt := hlow v hv
    rw [node_congr hsame (by decide) (by omega)]
  have hone : (vpns.image (· / 512 ^ 2)).filter (fun x => node m' root 1 x = none) =
      (vpns.image (· / 512 ^ 2)).filter fun x => node m root 1 x = none := by
    refine filter_congr fun x hx => ?_
    obtain ⟨v, hv, rfl⟩ := mem_image.mp hx
    have hlt := hlow v hv
    rw [node_congr hsame (by decide) (by omega)]
  rw [demand, demand, hleaf, htwo, hone]

/-! ## Faults -/

/-- What a fault takes from the free list: it fails only for lack of memory where the page is
not mapped and below the size, and otherwise takes what the page needs. -/
def FaultDemand (s : Phys) (root psz va : Nat) (r : Option Nat) (s' : Phys) : Prop :=
  (r = none → psz ≤ va ∨ leafPte s.mem root (va / 4096) ≠ none ∨
      s.freelist.length < need s.mem root (va / 4096)) ∧
    ∀ pa, r = some pa → Materialised s'.mem s.mem root (va / 4096) ∧
      s.freelist.length = s'.freelist.length + need s.mem root (va / 4096)

theorem Sep.filled_tables (hsep : Sep s root keep held) (hfree : s.freelist = pa :: rest)
    (c d : UInt8) :
    ∀ pg ∈ tablePages s.mem root, SamePage ((s.mem.fill pa c 4096).fill pa d 4096) s.mem pg := by
  intro pg hpg
  have hpa : pa ∈ s.freelist := hfree ▸ List.mem_cons_self
  refine fill_fill_frame s.mem c d (hsep.inv.free_heap hpa).1 pg (hsep.inv.table_heap hpg).1 ?_
  rw [List.mem_singleton]
  rintro rfl
  exact hsep.inv.free_not_table hpa hpg

theorem mappages_demand {c : UInt8} (hsep : Sep s root keep held)
    (hfree : s.freelist = pa :: rest) (hva : va < MAXVA) (halign : va % 4096 = 0)
    (hperm : perm < 1024) (hnone : leafPte s.mem root (va / 4096) = none) :
    (mappages root va PGSIZE pa perm).Holds
      { s with freelist := rest, mem := (s.mem.fill pa 5 4096).fill pa c 4096 }
      (fun r s' => (r ≠ 0 → s.freelist.length < need s.mem root (va / 4096)) ∧
        (r = 0 → Materialised s'.mem s.mem root (va / 4096) ∧
          s.freelist.length = s'.freelist.length + need s.mem root (va / 4096)))
      (fun _ => True) := by
  have hpa : pa ∈ s.freelist := hfree ▸ mem_cons_self
  have hheap := hsep.inv.free_heap hpa
  have hlt := hsep.inv.heapPage_lt hheap
  have hsame := hsep.filled_tables hfree 5 c
  have hmax : MAXVA = 2 ^ 38 := rfl
  have hneed : need s.mem root (va / 4096) = missing s.mem root va + 1 := by
    rw [need, if_pos hnone, missing_page]
  have hlen : s.freelist.length = rest.length + 1 := by
    rw [hfree]
    rfl
  obtain ⟨htaken, -⟩ := moved_take hsep hfree (fill_fill_frame s.mem 5 c hheap.1)
  refine ((mappages_page htaken.inv.toPtTree hva halign (by omega) hperm).and
    (mappages_offPath htaken.inv.toPtTree hva halign (by omega) hperm)).mono ?_ (by simp)
  rintro r s' ⟨⟨-, taken, hgrown, hcases⟩, hoff⟩
  have hfree' : rest = taken ++ s'.freelist := hgrown.free
  rw [missing_congr hsame hva] at hcases
  rcases hcases with ⟨hr, hcount, hleaf⟩ | ⟨hr, hnil, hcount, -⟩
  · refine ⟨fun hne => absurd hr hne, fun _ => ⟨?_, ?_⟩⟩
    · have hleaves : ∀ vpn, vpn < 512 ^ 3 → leafPte s'.mem root vpn =
          if vpn = va / 4096 then some (mkPte pa perm) else leafPte s.mem root vpn := by
        intro vpn hvpn
        rw [hleaf vpn hvpn, leafPte_congr hsame hvpn]
      refine Materialised.of_offPath hva ?_ hleaves
      exact hoff.trans (OffPath.of_nodes fun d x hd hx => node_congr hsame (by omega) hx)
    · rw [hneed, hlen, hfree', length_append]
      omega
  · refine ⟨fun _ => ?_, fun hzero => ?_⟩
    · rw [hneed, hlen, hfree', hnil, append_nil]
      omega
    · rw [hr] at hzero
      cases hzero

theorem vmfault_demand (hsep : Sep s root keep held) (hpsz : psz ≤ 2 ^ 38) :
    (vmfault psz root root va).Holds s (FaultDemand s root psz va) (fun _ => True) := by
  have hdown : PGROUNDDOWN va / 4096 = va / 4096 := by
    rw [PGROUNDDOWN]
    omega
  rw [vmfault]
  by_cases hge : va ≥ psz
  · rw [if_pos hge, holds_pure]
    exact ⟨fun _ => Or.inl hge, by rintro _ ⟨⟩⟩
  have hva : PGROUNDDOWN va < MAXVA := by
    rw [PGROUNDDOWN, MAXVA]
    omega
  rw [if_neg hge, holds_bind, holds_ismapped hva, hdown]
  cases hleaf : leafPte s.mem root (va / 4096) with
  | some pte =>
    rw [isSome_some, if_pos rfl, holds_pure]
    exact ⟨fun _ => Or.inr (Or.inl (by rw [hleaf]; rintro ⟨⟩)), by rintro _ ⟨⟩⟩
  | none =>
    rw [isSome_none, if_neg Bool.false_ne_true, holds_bind, holds_kalloc]
    constructor
    · intro hnil
      rw [holds_pure]
      refine ⟨fun _ => Or.inr (Or.inr ?_), by rintro _ ⟨⟩⟩
      rw [need, if_pos hleaf, hnil]
      exact Nat.succ_pos _
    · intro pa rest hfree
      simp only [holds_bind, memset, holds_update]
      have hperm : faultPerm < 1024 := by decide
      have hrun := mappages_demand (c := 0) hsep hfree hva (PGROUNDDOWN_mod va) hperm
        (by rw [hdown]; exact hleaf)
      rw [hdown] at hrun
      refine hrun.mono ?_ (fun _ _ => trivial)
      rintro r s1 ⟨hfail, hok⟩
      by_cases hr : r = 0
      · rw [if_neg (not_not.mpr hr), holds_pure]
        exact ⟨by rintro ⟨⟩, fun _ _ => hok hr⟩
      · rw [if_pos hr]
        simp only [kfree, memset, pushFree, holds_bind, holds_read, holds_ite,
          holds_panic, holds_update, holds_pure, implies_true, true_and]
        exact fun _ => ⟨fun _ => Or.inr (Or.inr (hfail hr)), by rintro _ ⟨⟩⟩

/-- What `userPage` takes from the free list. -/
def UserPageDemand (s : Phys) (root psz va : Nat) (r : Option Nat) (s' : Phys) : Prop :=
  (r = none → ¬ CanTouch s.mem root psz PTE_U (va / 4096) ∨
      s.freelist.length < need s.mem root (va / 4096)) ∧
    ∀ pa, r = some pa → Materialised s'.mem s.mem root (va / 4096) ∧
      s.freelist.length = s'.freelist.length + need s.mem root (va / 4096)

theorem userPage_demand (henv : UserEnv s root keep held psz) (halign : va % 4096 = 0) :
    (userPage psz root root va).Holds s (UserPageDemand s root psz va) (fun _ => True) := by
  have htf : TRAPFRAME = 2 ^ 38 - 8192 := rfl
  have hmax : MAXVA = 2 ^ 38 := rfl
  have hsmall := henv.small
  rw [userPage, holds_bind, holds_walkaddr]
  cases hpa : userPa s.mem root va with
  | some pa =>
    dsimp only
    rw [holds_pure]
    refine ⟨by rintro ⟨⟩, fun _ _ => ?_⟩
    rw [userPa, ite_none_right_eq_some, bind_eq_some_iff] at hpa
    obtain ⟨-, pte, hpte, -⟩ := hpa
    rw [need, if_neg (by rw [hpte]; rintro ⟨⟩)]
    exact ⟨Materialised.of_mapped hpte, rfl⟩
  | none =>
    dsimp only
    refine (vmfault_demand henv.sep (by omega)).mono ?_ (fun _ _ => trivial)
    rintro r s' ⟨hfail, hok⟩
    refine ⟨fun hr => ?_, hok⟩
    by_cases hcan : CanTouch s.mem root psz PTE_U (va / 4096)
    · right
      obtain ⟨hlow, hmapped, hlazy⟩ := hcan
      -- the page is not mapped, or `walkaddr` would have found it
      have hnone : leafPte s.mem root (va / 4096) = none := by
        cases hleaf : leafPte s.mem root (va / 4096) with
        | none => rfl
        | some pte =>
          rw [userPa, if_pos (by omega), hleaf, bind_some, if_pos (hmapped pte hleaf).1] at hpa
          cases hpa
      have hlt := hlazy hnone
      rw [pgup] at hlt
      rcases hfail hr with hge | hleaf | hfew
      · omega
      · exact absurd hnone hleaf
      · exact hfew
    · exact Or.inl hcan

end EAFITos
