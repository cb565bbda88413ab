/-
Tearing a page table down: `freewalk` returns exactly the table pages to the
free list, and panics exactly when a leaf entry is left.
-/
import EAFITos.Uvm

namespace EAFITos

open List Prog Option

/-- The tables below `t`, by recursion on the number of levels under it. -/
def subTables (m : ByteMem) : Nat → Nat → List Nat
  | 0, t => [t]
  | h + 1, t => t :: (range 512).flatMap fun i =>
    ((child m t i).map (subTables m h)).getD []

/-- The tables under entry `i` of `t`. -/
def childTables (m : ByteMem) (h t i : Nat) : List Nat :=
  ((child m t i).map (subTables m h)).getD []

/-- No leaf entry is left `h` levels below `t`. -/
def Hollow (m : ByteMem) : Nat → Nat → Prop
  | 0, t => ∀ i, i < 512 → ¬ pteAt m t i % 2 = 1
  | h + 1, t => ∀ i, i < 512 → pteAt m t i % 2 = 1 → Hollow m h (PTE2PA (pteAt m t i))

/-- The valid entries are links above the last level and leaves on it. -/
def Shaped (m : ByteMem) : Nat → Nat → Prop
  | 0, t => ∀ i, i < 512 → pteAt m t i % 2 = 1 →
      hasFlag (pteAt m t i) (PTE_R ||| PTE_W ||| PTE_X) = true
  | h + 1, t => ∀ i, i < 512 → pteAt m t i % 2 = 1 →
      PTE_FLAGS (pteAt m t i) = 1 ∧ Shaped m h (PTE2PA (pteAt m t i))

section Congr

variable {m m' : ByteMem}

theorem mem_subTables_self (h t : Nat) : t ∈ subTables m h t := by
  cases h with
  | zero => exact mem_singleton_self t
  | succ h => exact mem_cons_self

theorem childTables_of_valid {h t i : Nat} (hvalid : pteAt m t i % 2 = 1) :
    childTables m h t i = subTables m h (PTE2PA (pteAt m t i)) := by
  rw [childTables, child_of_valid hvalid, map_some, getD_some]

theorem childTables_of_invalid {h t i : Nat} (hinvalid : ¬ pteAt m t i % 2 = 1) :
    childTables m h t i = [] := by
  rw [childTables, child_of_invalid hinvalid, map_none, getD_none]

theorem subTables_succ (h t : Nat) :
    subTables m (h + 1) t = t :: (range 512).flatMap (childTables m h t) := rfl

theorem childTables_subset {h t i : Nat} (hi : i < 512) :
    childTables m h t i ⊆ subTables m (h + 1) t := by
  intro pg hpg
  exact mem_cons_of_mem _ (mem_flatMap.2 ⟨i, mem_range.2 hi, hpg⟩)

/-- The subtree under `t` reads only its own pages. -/
theorem subTables_congr (h t : Nat) (hsame : ∀ pg ∈ subTables m h t, SamePage m' m pg) :
    subTables m' h t = subTables m h t ∧ (Hollow m' h t ↔ Hollow m h t) ∧
      (Shaped m' h t ↔ Shaped m h t) := by
  have hpte : ∀ i, i < 512 → pteAt m' t i = pteAt m t i :=
    fun i hi => pteAt_congr (hsame t (mem_subTables_self h t)) hi
  induction h generalizing t with
  | zero =>
    refine ⟨rfl, ?_, ?_⟩
    · exact forall₂_congr fun i hi => by rw [hpte i hi]
    · exact forall₂_congr fun i hi => by rw [hpte i hi]
  | succ h ih =>
    have hchild : ∀ i, i < 512 → pteAt m t i % 2 = 1 →
        subTables m' h (PTE2PA (pteAt m t i)) = subTables m h (PTE2PA (pteAt m t i)) ∧
          (Hollow m' h (PTE2PA (pteAt m t i)) ↔ Hollow m h (PTE2PA (pteAt m t i))) ∧
          (Shaped m' h (PTE2PA (pteAt m t i)) ↔ Shaped m h (PTE2PA (pteAt m t i))) := by
      intro i hi hvalid
      have hsub : ∀ pg ∈ subTables m h (PTE2PA (pteAt m t i)), SamePage m' m pg := by
        rw [← childTables_of_valid hvalid]
        exact fun pg hpg => hsame pg (childTables_subset hi hpg)
      exact ih _ hsub fun j hj => pteAt_congr (hsub _ (mem_subTables_self h _)) hj
    refine ⟨?_, ?_, ?_⟩
    · have hall : (range 512).flatMap (childTables m' h t) =
          (range 512).flatMap (childTables m h t) := by
        apply flatMap_congr
        intro i hi
        rw [mem_range] at hi
        by_cases hvalid : pteAt m t i % 2 = 1
        · rw [childTables_of_valid hvalid,
            childTables_of_valid (by rw [hpte i hi]; exact hvalid), hpte i hi,
            (hchild i hi hvalid).1]
        · rw [childTables_of_invalid hvalid,
            childTables_of_invalid (by rw [hpte i hi]; exact hvalid)]
      rw [subTables_succ, subTables_succ, hall]
    · refine forall₂_congr fun i hi => ?_
      rw [hpte i hi]
      exact forall_congr' fun hvalid => (hchild i hi hvalid).2.1
    · refine forall₂_congr fun i hi => ?_
      rw [hpte i hi]
      exact forall_congr' fun hvalid => and_congr_right fun _ => (hchild i hi hvalid).2.2

end Congr

/-- The state of the loop of `freewalk` over the entries of `t`: the subtrees of
the entries `done` are free, the entries `rest` are as they were in `s`. -/
structure WalkedTo (s : Phys) (h t : Nat) (done rest : List Nat) (s1 : Phys) : Prop where
  split : range 512 = done ++ rest
  hollow : ∀ i ∈ done, pteAt s.mem t i % 2 = 1 → Hollow s.mem h (PTE2PA (pteAt s.mem t i))
  free : s1.freelist.Perm (done.flatMap (childTables s.mem h t) ++ s.freelist)
  frame : Frame s1.mem s.mem
    (t :: (done.flatMap (childTables s.mem h t) ++ s.freelist))
  entries : ∀ i ∈ rest, pteAt s1.mem t i = pteAt s.mem t i
  bounds : SameBounds s1 s
  refreed : s1.refreed = s.refreed

section Step

variable {s s1 s2 : Phys} {h t i : Nat} {done rest : List Nat}

section

variable (hw : WalkedTo s h t done (i :: rest) s1)
include hw

theorem WalkedTo.skip (hinvalid : ¬ pteAt s.mem t i % 2 = 1) :
    WalkedTo s h t (done ++ [i]) rest s1 := by
  have hnone := childTables_of_invalid (h := h) hinvalid
  have hsame : (done ++ [i]).flatMap (childTables s.mem h t) =
      done.flatMap (childTables s.mem h t) := by
    rw [flatMap_append, flatMap_singleton, hnone, append_nil]
  refine ⟨?_, ?_, ?_, ?_, fun j hj => hw.entries j (mem_cons_of_mem _ hj), hw.bounds, hw.refreed⟩
  · rw [hw.split, append_assoc, singleton_append]
  · intro j hj hvalid
    rcases mem_append.1 hj with hj | hj
    · exact hw.hollow j hj hvalid
    · rw [mem_singleton.1 hj] at hvalid
      exact absurd hvalid hinvalid
  · rw [hsame]
    exact hw.free
  · rw [hsame]
    exact hw.frame

/-- How the pages divide when the loop has reached entry `i`. -/
theorem WalkedTo.divide (hgood : Good s (subTables s.mem (h + 1) t ++ s.freelist)) :
    Good s (childTables s.mem h t i ++ (done.flatMap (childTables s.mem h t) ++ s.freelist)) ∧
      (∀ pg ∈ childTables s.mem h t i ++
        (done.flatMap (childTables s.mem h t) ++ s.freelist), pg ≠ t) ∧ t % 4096 = 0 := by
  have hperm : (subTables s.mem (h + 1) t ++ s.freelist).Perm
      ((childTables s.mem h t i ++ (done.flatMap (childTables s.mem h t) ++ s.freelist)) ++
        (t :: rest.flatMap (childTables s.mem h t))) := by
    rw [subTables_succ, hw.split, flatMap_append, flatMap_cons]
    refine perm_iff_count.2 fun pg => ?_
    simp only [count_append, count_cons]
    omega
  have hnodup := hperm.nodup_iff.1 hgood.nodup
  rw [nodup_append'] at hnodup
  refine ⟨⟨hnodup.1, fun pg hpg => hgood.heap pg ?_⟩, ?_, ?_⟩
  · exact hperm.mem_iff.2 (mem_append_left _ hpg)
  · rintro pg hpg rfl
    exact hnodup.2.2 hpg mem_cons_self
  · exact (hgood.heap t (mem_append_left _ (mem_subTables_self _ _))).1

theorem WalkedTo.step (hgood : Good s (subTables s.mem (h + 1) t ++ s.freelist))
    (hhollow : Hollow s.mem h (PTE2PA (pteAt s.mem t i)))
    (hshift : Shift s2 s1 s2.freelist (childTables s.mem h t i ++ s1.freelist)) :
    WalkedTo s h t (done ++ [i]) rest { s2 with mem := s2.mem.storeLE (t + 8 * i) 8 0 } := by
  obtain ⟨_, hne, halign⟩ := hw.divide hgood
  have hi : i < 512 := by
    rw [← mem_range, hw.split]
    exact mem_append_right _ mem_cons_self
  have hrest : ∀ j ∈ rest, j < 512 ∧ j ≠ i := by
    intro j hj
    have hnodup : (done ++ i :: rest).Nodup := hw.split ▸ nodup_range
    constructor
    · rw [← mem_range, hw.split]
      exact mem_append_right _ (mem_cons_of_mem _ hj)
    · rintro rfl
      exact (nodup_cons.1 (nodup_append'.1 hnodup).2.1).1 hj
  have hlist : (done ++ [i]).flatMap (childTables s.mem h t) =
      done.flatMap (childTables s.mem h t) ++ childTables s.mem h t i := by
    rw [flatMap_append, flatMap_singleton]
  have hsub : childTables s.mem h t i ++ s1.freelist ⊆
      childTables s.mem h t i ++ (done.flatMap (childTables s.mem h t) ++ s.freelist) := by
    intro pg hpg
    rcases mem_append.1 hpg with hpg | hpg
    · exact mem_append_left _ hpg
    · exact mem_append_right _ (hw.free.mem_iff.1 hpg)
  have htable : SamePage s2.mem s1.mem t := hshift.frame t halign fun hin => hne t (hsub hin) rfl
  refine ⟨?_, ?_, ?_, ?_, ?_, ?_, hshift.refreed.trans hw.refreed⟩
  · rw [hw.split, append_assoc, singleton_append]
  · intro j hj hvalid
    rcases mem_append.1 hj with hj | hj
    · exact hw.hollow j hj hvalid
    · rw [mem_singleton.1 hj]
      exact hhollow
  · rw [hlist]
    refine perm_iff_count.2 fun pg => ?_
    have hcount := hshift.perm.count_eq pg
    have hcount' := hw.free.count_eq pg
    simp only [count_append] at hcount hcount' ⊢
    omega
  · rw [hlist]
    have hstore := storeLE_frame s2.mem (v := 0) halign hi
    have hwide : Frame s2.mem s1.mem (t :: (done.flatMap (childTables s.mem h t) ++
        childTables s.mem h t i ++ s.freelist)) := by
      apply hshift.frame.mono
      intro pg hpg
      have hin := hsub hpg
      simp only [mem_cons, mem_append] at hin ⊢
      tauto
    have hbefore : Frame s1.mem s.mem (t :: (done.flatMap (childTables s.mem h t) ++
        childTables s.mem h t i ++ s.freelist)) := by
      apply hw.frame.mono
      intro pg hpg
      simp only [mem_cons, mem_append] at hpg ⊢
      tauto
    exact ((hstore.mono (cons_subset.2 ⟨mem_cons_self, nil_subset _⟩)).trans hwide).trans hbefore
  · intro j hj
    obtain ⟨hj512, hji⟩ := hrest j hj
    rw [pteAt_store_other s2.mem halign halign hi hj512 (fun heq => hji heq.2),
      pteAt_congr htable hj512, hw.entries j (mem_cons_of_mem _ hj)]
  · exact (hshift.bounds.setMem _).trans hw.bounds

end

end Step

theorem hasFlag_of_link {pte : Nat} (hflags : PTE_FLAGS pte = 1) :
    hasFlag pte (PTE_R ||| PTE_W ||| PTE_X) = false := by
  rw [← hasFlag_flags _ _ (by decide), hflags]
  rfl

/-- One entry of the loop: an invalid one is passed over, a link is followed and
cleared, a leaf is a panic. -/
theorem holds_freewalkEntry {s : Phys} {freeTable : Nat → Prog Phys PUnit} {t i : Nat}
    {post : PUnit → Phys → Prop} {onPanic : String → Prop} :
    (freewalkEntry freeTable t i).Holds s post onPanic ↔ (¬ pteAt s.mem t i % 2 = 1 → post ⟨⟩ s) ∧
      (pteAt s.mem t i % 2 = 1 → hasFlag (pteAt s.mem t i) (PTE_R ||| PTE_W ||| PTE_X) = true →
        onPanic "freewalk: leaf") ∧ (pteAt s.mem t i % 2 = 1 →
        hasFlag (pteAt s.mem t i) (PTE_R ||| PTE_W ||| PTE_X) = false →
        (freeTable (PTE2PA (pteAt s.mem t i))).Holds s (fun _ s' =>
          post ⟨⟩ { s' with mem := s'.mem.storeLE (t + 8 * i) 8 0 }) onPanic) := by
  have hpte : s.mem.loadLE (t + 8 * i) 8 = pteAt s.mem t i := rfl
  rw [freewalkEntry, holds_bind, loadPte, holds_read, hpte]
  by_cases hvalid : pteAt s.mem t i % 2 = 1
  · cases hleaf : hasFlag (pteAt s.mem t i) (PTE_R ||| PTE_W ||| PTE_X) with
    | true => simp [hvalid]
    | false => simp [hvalid, storePte]
  · simp [hvalid]

/-- The last act of `freewalk`: the table itself joins its subtrees. -/
theorem kfree_table {s s1 : Phys} {h t : Nat} (hw : WalkedTo s h t (range 512) [] s1)
    (hgood : Good s (subTables s.mem (h + 1) t ++ s.freelist)) :
    (kfree t).Holds s1 (fun _ s' => Hollow s.mem (h + 1) t ∧
      Shift s' s s'.freelist (subTables s.mem (h + 1) t ++ s.freelist)) (fun _ => False) := by
  have htin : t ∈ subTables s.mem (h + 1) t ++ s.freelist :=
    mem_append_left _ (mem_subTables_self _ _)
  have htheap := hgood.heap t htin
  rw [holds_kfree ((hw.bounds.heapPage_iff t).2 htheap)]
  have hnotin : t ∉ s1.freelist := by
    rw [hw.free.mem_iff]
    have hnodup := hgood.nodup
    rw [subTables_succ, cons_append, nodup_cons] at hnodup
    exact hnodup.1
  have hcontains : s1.freelist.contains t = false := by simpa using hnotin
  refine ⟨?_, ?_, ?_, ?_, ?_⟩
  · exact fun i hi hvalid => hw.hollow i (mem_range.2 hi) hvalid
  · exact hw.free.cons t
  · have hfill := fill_frame s1.mem 1 htheap.1
    have hsub : t :: ((range 512).flatMap (childTables s.mem h t) ++ s.freelist) =
        subTables s.mem (h + 1) t ++ s.freelist := by
      rw [subTables_succ, cons_append]
    exact (hfill.mono (cons_subset.2 ⟨mem_cons_self, nil_subset _⟩)).trans hw.frame
  · exact ⟨hw.bounds.kend, hw.bounds.phystop, hw.bounds.trampoline⟩
  · rw [hcontains, Bool.or_false]
    exact hw.refreed

/-- `freewalk` by induction on the levels under the table: every subtree is
freed before its parent. -/
theorem freewalk_subtree (h : Nat) {s : Phys} {t : Nat} (hshaped : Shaped s.mem h t)
    (hgood : Good s (subTables s.mem h t ++ s.freelist)) :
    (freewalk (h + 1) t).Holds s (fun _ s' => Hollow s.mem h t ∧
        Shift s' s s'.freelist (subTables s.mem h t ++ s.freelist))
      (fun message => message = "freewalk: leaf" ∧ ¬ Hollow s.mem h t) := by
  induction h generalizing s t with
  | zero =>
    have htheap : HeapPage s t := hgood.heap t (mem_append_left _ (mem_subTables_self _ _))
    rw [freewalk, holds_bind]
    have hloop : (Prog.forEach (freewalkEntry (freewalk 0) t) (range 512)).Holds s
        (fun _ s1 => s1 = s ∧ ∃ done, range 512 = done ++ [] ∧
          ∀ i ∈ done, ¬ pteAt s.mem t i % 2 = 1)
        (fun message => message = "freewalk: leaf" ∧ ¬ Hollow s.mem 0 t) :=
      holds_forEach (fun rest s1 => s1 = s ∧
          ∃ done, range 512 = done ++ rest ∧ ∀ i ∈ done, ¬ pteAt s.mem t i % 2 = 1)
      (fun i rest s1 hinv => by
        obtain ⟨hs1, done, hsplit, hdone⟩ := hinv
        have hi : i < 512 := by
          rw [← mem_range, hsplit]
          exact mem_append_right _ mem_cons_self
        rw [holds_freewalkEntry, hs1]
        refine ⟨fun hinvalid => ⟨rfl, done ++ [i], ?_, ?_⟩, fun hvalid _ => ⟨rfl, ?_⟩,
          fun hvalid hnoleaf => ?_⟩
        · rw [hsplit, append_assoc, singleton_append]
        · intro j hj
          rcases mem_append.1 hj with hj | hj
          · exact hdone j hj
          · rw [mem_singleton.1 hj]
            exact hinvalid
        · exact fun hall => hall i hi hvalid
        · rw [hshaped i hi hvalid] at hnoleaf
          exact absurd hnoleaf (by decide))
      (range 512) ⟨rfl, [], (nil_append _).symm, fun _ h => absurd h not_mem_nil⟩
    refine hloop.imp ?_
    rintro _ s1 ⟨hs1, done, hsplit, hdone⟩
    rw [hs1]
    have hhollow : Hollow s.mem 0 t := by
      intro i hi
      apply hdone
      rw [append_nil] at hsplit
      rw [← hsplit]
      exact mem_range.2 hi
    have hnotin : t ∉ s.freelist := by
      have hnodup := hgood.nodup
      rw [subTables, singleton_append, nodup_cons] at hnodup
      exact hnodup.1
    have hcontains : s.freelist.contains t = false := by simpa using hnotin
    rw [holds_kfree htheap]
    refine ⟨hhollow, ?_, ?_, ⟨rfl, rfl, rfl⟩, ?_⟩
    · rw [subTables, singleton_append]
    · exact (fill_frame s.mem 1 htheap.1).mono (subset_append_left _ _)
    · rw [hcontains, Bool.or_false]
  | succ h ih =>
    have hshaped' := hshaped
    rw [freewalk, holds_bind]
    have hloop : (Prog.forEach (freewalkEntry (freewalk (h + 1)) t)
          (range 512)).Holds s (fun _ s1 => ∃ done, WalkedTo s h t done [] s1)
        (fun message => message = "freewalk: leaf" ∧ ¬ Hollow s.mem (h + 1) t) :=
      holds_forEach (fun rest s1 => ∃ done, WalkedTo s h t done rest s1) (fun i rest s1 hinv => by
        obtain ⟨done, hw⟩ := hinv
        have hi : i < 512 := by
          rw [← mem_range, hw.split]
          exact mem_append_right _ mem_cons_self
        have hpte := hw.entries i mem_cons_self
        rw [holds_freewalkEntry, hpte]
        refine ⟨fun hinvalid => ⟨done ++ [i], hw.skip hinvalid⟩, fun hvalid hleaf => ?_,
          fun hvalid _ => ?_⟩
        · rw [hasFlag_of_link (hshaped' i hi hvalid).1] at hleaf
          exact absurd hleaf (by decide)
        · -- the subtree is as it was at the start, so the induction applies to it
          obtain ⟨hdivide, hne, _⟩ := hw.divide hgood
          have hchild := childTables_of_valid (h := h) hvalid
          have hsame : ∀ pg ∈ subTables s.mem h (PTE2PA (pteAt s.mem t i)),
              SamePage s1.mem s.mem pg := by
            intro pg hpg
            rw [← hchild] at hpg
            have hin := mem_append_left (done.flatMap (childTables s.mem h t) ++ s.freelist) hpg
            apply hw.frame pg (hdivide.heap pg hin).1
            intro hmem
            rcases mem_cons.1 hmem with heq | hmem
            · exact hne pg hin heq
            · exact (nodup_append'.1 hdivide.nodup).2.2 hpg hmem
          obtain ⟨htables, hhollow, hshape⟩ := subTables_congr h _ hsame
          have hperm : (subTables s1.mem h (PTE2PA (pteAt s.mem t i)) ++ s1.freelist).Perm
              (childTables s.mem h t i ++
                (done.flatMap (childTables s.mem h t) ++ s.freelist)) := by
            rw [htables, ← hchild]
            exact hw.free.append_left _
          have hgood1 : Good s1 (subTables s1.mem h (PTE2PA (pteAt s.mem t i)) ++ s1.freelist) :=
            ⟨hperm.nodup_iff.2 hdivide.nodup, fun pg hpg =>
              (hw.bounds.heapPage_iff pg).2 (hdivide.heap pg (hperm.mem_iff.1 hpg))⟩
          refine (ih (hshape.2 (hshaped' i hi hvalid).2) hgood1).mono ?_ ?_
          · rintro _ s2 ⟨hdone, hshift⟩
            rw [htables, ← hchild] at hshift
            exact ⟨done ++ [i], hw.step hgood (hhollow.1 hdone) hshift⟩
          · rintro message ⟨hmessage, hnot⟩
            refine ⟨hmessage, fun hall => hnot ?_⟩
            exact hhollow.2 (hall i hi hvalid))
      (range 512) ⟨[], (nil_append _).symm,
        fun _ h => absurd h not_mem_nil, List.Perm.refl _, Frame.refl _ _, fun _ _ => rfl, SameBounds.refl s, rfl⟩
    refine hloop.imp ?_
    rintro _ s1 ⟨done, hw⟩
    have hdone : done = range 512 := by
      rw [hw.split, append_nil]
    rw [hdone] at hw
    exact (kfree_table hw hgood).mono (fun _ _ h => h) nofun

theorem tables_perm_subTables (m : ByteMem) (h t : Nat) :
    (Radix.tables 512 (child m) t h).Perm (subTables m h t) := by
  induction h generalizing t with
  | zero => rw [Radix.tables_zero, subTables]
  | succ h ih =>
    refine Radix.tables_succ_perm.trans ?_
    refine (List.Perm.flatMap_left _ fun i _ => ?_).cons t
    cases child m t i with
    | none => rw [map_none, map_none]
    | some u =>
      exact ih u

theorem tablePages_perm (m : ByteMem) (root : Nat) :
    (tablePages m root).Perm (subTables m 2 root) := tables_perm_subTables m 2 root

/-- The two ways to reach the tables of the lower levels. -/
theorem node_links {m : ByteMem} {root i j : Nat} (hi : i < 512) (hj : j < 512)
    (hvalid : pteAt m root i % 2 = 1) (hvalid' : pteAt m (PTE2PA (pteAt m root i)) j % 2 = 1) :
    node m root 1 i = some (PTE2PA (pteAt m root i)) ∧ node m root 2 (i * 512 + j) =
        some (PTE2PA (pteAt m (PTE2PA (pteAt m root i)) j)) := by
  have hone : node m root 1 i = some (PTE2PA (pteAt m root i)) := by
    rw [node_succ, node_zero, bind_some, Nat.mod_eq_of_lt hi, child_of_valid hvalid]
  refine ⟨hone, ?_⟩
  rw [node_succ, Radix.mul_add_div hj, Radix.mul_add_mod hj, hone, bind_some,
    child_of_valid hvalid']

theorem leafPte_links {m : ByteMem} {root i j l : Nat} (hi : i < 512) (hj : j < 512)
    (hl : l < 512) (hvalid : pteAt m root i % 2 = 1)
    (hvalid' : pteAt m (PTE2PA (pteAt m root i)) j % 2 = 1) :
    leafPte m root ((i * 512 + j) * 512 + l) =
      if pteAt m (PTE2PA (pteAt m (PTE2PA (pteAt m root i)) j)) l % 2 = 1 then
        some (pteAt m (PTE2PA (pteAt m (PTE2PA (pteAt m root i)) j)) l) else none := by
  rw [leafPte, Radix.mul_add_div hl, Radix.mul_add_mod hl,
    (node_links hi hj hvalid hvalid').2, bind_some]

theorem PtInv.shaped {s : Phys} {root : Nat} (hinv : PtInv s root) : Shaped s.mem 2 root := by
  intro i hi hvalid
  refine ⟨hinv.interior 0 0 root i (by decide) (by decide) (node_zero _ _ _) hi hvalid, ?_⟩
  intro j hj hvalid'
  obtain ⟨hone, _⟩ := node_links hi hj hvalid hvalid'
  refine ⟨hinv.interior 1 i _ j (by decide) (by omega) hone hj hvalid', ?_⟩
  intro l hl hvalid''
  have hleaf := leafPte_links hi hj hl hvalid hvalid'
  rw [if_pos hvalid''] at hleaf
  exact hinv.leaf _ _ (by omega) hleaf

/-- A page table is hollow when it maps nothing. -/
theorem hollow_iff (m : ByteMem) (root : Nat) :
    Hollow m 2 root ↔ ∀ vpn, vpn < 512 ^ 3 → leafPte m root vpn = none := by
  constructor
  · intro hhollow vpn hvpn
    rw [leafPte, node_succ]
    cases hone : node m root 1 (vpn / 512 / 512) with
    | none => rw [bind_none, bind_none]
    | some u =>
      rw [bind_some]
      cases htwo : child m u (vpn / 512 % 512) with
      | none => rw [bind_none]
      | some t =>
        rw [bind_some, if_neg]
        have hi : vpn / 512 / 512 < 512 := by omega
        rw [node_succ, node_zero, bind_some, Nat.mod_eq_of_lt hi, child] at hone
        rw [child] at htwo
        split at hone
        · rename_i hvalid
          rw [← some.inj hone] at htwo
          split at htwo
          · rename_i hvalid'
            have h1 := hhollow _ hi hvalid
            have h2 := h1 _ (Nat.mod_lt _ (by decide)) hvalid'
            rw [Hollow, some.inj htwo] at h2
            exact h2 _ (Nat.mod_lt _ (by decide))
          · exact absurd htwo (by simp)
        · exact absurd hone (by simp)
  · intro hnone
    intro i hi hvalid
    intro j hj hvalid'
    intro l hl hvalid''
    have hleaf := leafPte_links hi hj hl hvalid hvalid'
    rw [if_pos hvalid'', hnone _ (by omega)] at hleaf
    exact absurd hleaf (by simp)

/-- `freewalk` on a whole page table: the tables are freed when nothing is
mapped, and otherwise it panics. -/
theorem freewalk_spec {s : Phys} {root : Nat} (hinv : PtInv s root) :
    (freewalk 3 root).Holds s (fun _ s' => (∀ vpn, vpn < 512 ^ 3 → leafPte s.mem root vpn = none) ∧
        Shift s' s s'.freelist (s.freelist ++ tablePages s.mem root))
      (fun message => message = "freewalk: leaf" ∧
        ∃ vpn, vpn < 512 ^ 3 ∧ leafPte s.mem root vpn ≠ none) := by
  have hperm : (subTables s.mem 2 root ++ s.freelist).Perm (s.freelist ++ tablePages s.mem root) :=
    ((tablePages_perm s.mem root).symm.append_right _).trans perm_append_comm
  have hgood : Good s (subTables s.mem 2 root ++ s.freelist) :=
    ⟨hperm.nodup_iff.2 hinv.nodup, fun pg hpg => hinv.heap pg (hperm.mem_iff.1 hpg)⟩
  refine (freewalk_subtree 2 hinv.shaped hgood).mono ?_ ?_
  · rintro _ s' ⟨hhollow, hshift⟩
    exact ⟨(hollow_iff s.mem root).1 hhollow, hshift.congr (List.Perm.refl _) hperm⟩
  · rintro message ⟨hmessage, hnot⟩
    rw [hollow_iff, not_forall] at hnot
    obtain ⟨vpn, hvpn⟩ := hnot
    exact ⟨hmessage, vpn, Classical.not_imp.1 hvpn⟩

theorem uvmfree_spec {s : Phys} {root sz : Nat} {keep : Nat → Bool} {held : List Nat}
    (hsep : Sep s root keep held) (hsz : sz ≤ 2 ^ 38)
    (hkeep : ∀ vpn, vpn < pgup sz → leafPte s.mem root vpn ≠ none → keep vpn = true) :
    (uvmfree root sz).Holds s (fun _ s' =>
        (∀ vpn, pgup sz ≤ vpn → vpn < 512 ^ 3 → leafPte s.mem root vpn = none) ∧
        Shift s' s (s'.freelist ++ held) (ledger s root keep held))
      (fun message => message = "freewalk: leaf" ∧
        ∃ vpn, pgup sz ≤ vpn ∧ vpn < 512 ^ 3 ∧ leafPte s.mem root vpn ≠ none) := by
  have hbound : pgup sz ≤ 2 ^ 26 := pgup_le (by omega)
  -- what is left for `freewalk` after the pages below `sz` are unmapped
  have hrest : ∀ s1, Moved s1 s root keep held held → Unmapped s1 s root keep 0 (pgup sz) →
      (freewalk 3 root).Holds s1 (fun _ s' =>
          (∀ vpn, pgup sz ≤ vpn → vpn < 512 ^ 3 → leafPte s.mem root vpn = none) ∧
          Shift s' s (s'.freelist ++ held) (ledger s root keep held))
        (fun message => message = "freewalk: leaf" ∧
          ∃ vpn, pgup sz ≤ vpn ∧ vpn < 512 ^ 3 ∧ leafPte s.mem root vpn ≠ none) := by
    intro s1 hmoved hun
    refine (freewalk_spec hmoved.inv).mono ?_ ?_
    · rintro _ s' ⟨hnone, hshift⟩
      have hnoleaf : ownedLeaves s1.mem root keep = [] := by
        rw [eq_nil_iff_forall_not_mem]
        intro pg hpg
        obtain ⟨vpn, pte, hvpn, _, hpte, _⟩ := mem_ownedLeaves_iff.1 hpg
        rw [hnone vpn hvpn] at hpte
        exact absurd hpte (by simp)
      have hledger : ledger s1 root keep held = s1.freelist ++ tablePages s1.mem root ++ held := by
        rw [ledger, hnoleaf, nil_append, append_assoc]
      refine ⟨fun vpn hlo hvpn => ?_, ?_⟩
      · rw [← hun.leaf_other hvpn (by omega)]
        exact hnone vpn hvpn
      · have hall := hshift.append held
        rw [← hledger] at hall
        exact hall.trans hmoved.shift
    · rintro message ⟨hmessage, vpn, hvpn, hleaf⟩
      by_cases hlo : pgup sz ≤ vpn
      · rw [hun.leaf_other hvpn (by omega)] at hleaf
        exact ⟨hmessage, vpn, hlo, hvpn, hleaf⟩
      · rw [hun.leaf_in hvpn (by omega)] at hleaf
        exact absurd rfl hleaf
  rw [uvmfree]
  by_cases hpos : sz > 0
  · have hpages : PGROUNDUP sz / PGSIZE = pgup sz := by
      rw [PGROUNDUP_eq hsz, PGSIZE]
      omega
    have hrun := uvmunmap_free (n := pgup sz) hsep (Nat.zero_mod 4096) (by omega)
      (fun vpn _ hhi => hkeep vpn (by omega))
    rw [if_pos hpos, holds_bind, hpages]
    refine hrun.mono ?_ (by rintro _ ⟨⟩)
    rintro _ s1 ⟨hmoved, hun, -⟩
    exact hrest s1 hmoved hun
  · have hzero : pgup sz = 0 := by
      rw [pgup]
      omega
    rw [if_neg hpos]
    refine hrest s (Moved.refl hsep.inv) ?_
    rw [hzero, unmapped_zero_iff]
    exact SameView.refl s

end EAFITos
