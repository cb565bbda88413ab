/-
Physical memory and its page allocator (`kernel/kalloc.c`): the bytes, the free
list, and page-table entries stored in memory as 64-bit words.
-/
import EAFITos.PanicMonad
import EAFITos.ByteMemory
import EAFITos.RadixTable
import EAFITos.Memlayout

namespace EAFITos

open Prog

variable {s s' : Phys} {pg : Nat}

/-- Physical memory as the kernel's allocator sees it.  The list `freelist`
stands for the chain of `struct run` headed by `kmem.freelist`. -/
structure Phys where
  mem : ByteMem
  freelist : List Nat
  /-- History: some page was handed to `kfree` while it was on the free list. -/
  refreed : Bool
  /-- `end`, the first address after the kernel. -/
  kend : Nat
  /-- `PHYSTOP`, the end of the memory that is there. -/
  phystop : Nat
  /-- The physical address of the trampoline code. -/
  trampoline : Nat

def memset (a : Nat) (c : UInt8) (n : Nat) : Prog Phys PUnit :=
  Prog.update fun s => { s with mem := s.mem.fill a c n }

def memmove (dst src n : Nat) : Prog Phys PUnit :=
  Prog.update fun s => { s with mem := s.mem.copy dst src n }

def loadPte (a : Nat) : Prog Phys Nat :=
  Prog.read fun s => s.mem.loadLE a 8

def storePte (a pte : Nat) : Prog Phys PUnit :=
  Prog.update fun s => { s with mem := s.mem.storeLE a 8 pte }

/-- Put a page at the head of the free list. -/
def pushFree (pa : Nat) : Prog Phys PUnit :=
  Prog.update fun s =>
    { s with
      freelist := pa :: s.freelist
      refreed := s.refreed || s.freelist.contains pa }

def kfree (pa : Nat) : Prog Phys PUnit := do
  let kend ← Prog.read Phys.kend
  let phystop ← Prog.read Phys.phystop
  if pa % PGSIZE ≠ 0 ∨ pa < kend ∨ phystop ≤ pa then
    Prog.panic "kfree"
  else do
    memset pa 1 PGSIZE
    pushFree pa

/-- `kalloc` returns `none` where the source returns a null pointer. -/
def kalloc : Prog Phys (Option Nat) := do
  match ← Prog.read Phys.freelist with
  | [] => pure none
  | r :: rest => do
    Prog.update fun s => { s with freelist := rest }
    memset r 5 PGSIZE
    pure (some r)

/-- A page of the range the allocator manages. -/
def HeapPage (s : Phys) (pg : Nat) : Prop :=
  pg % 4096 = 0 ∧ s.kend ≤ pg ∧ pg < s.phystop

/-- The bytes of a page are those of the other memory. -/
def SamePage (m' m : ByteMem) (pg : Nat) : Prop := ByteMem.AgreeOn m' m pg 4096

/-- The parts of the memory record that no operation changes. -/
structure SameBounds (s' s : Phys) : Prop where
  kend : s'.kend = s.kend
  phystop : s'.phystop = s.phystop
  trampoline : s'.trampoline = s.trampoline

theorem SameBounds.refl (s : Phys) : SameBounds s s := ⟨rfl, rfl, rfl⟩

theorem SameBounds.trans {s'' : Phys} (h : SameBounds s'' s') (h' : SameBounds s' s) :
    SameBounds s'' s := ⟨h.kend.trans h'.kend, h.phystop.trans h'.phystop,
    h.trampoline.trans h'.trampoline⟩

theorem SameBounds.setMem (h : SameBounds s' s) (m : ByteMem) :
    SameBounds { s' with mem := m } s := ⟨h.kend, h.phystop, h.trampoline⟩

theorem SameBounds.heapPage_iff (h : SameBounds s' s) (pg : Nat) :
    HeapPage s' pg ↔ HeapPage s pg := by
  rw [HeapPage, HeapPage, h.kend, h.phystop]

/-- The pages outside `pages` hold the bytes they held before. -/
def Frame (m' m : ByteMem) (pages : List Nat) : Prop :=
  ∀ pg, pg % 4096 = 0 → pg ∉ pages → SamePage m' m pg

theorem Frame.refl (m : ByteMem) (pages : List Nat) : Frame m m pages :=
  fun _ _ _ => ByteMem.AgreeOn.refl _ _ _

theorem Frame.trans {m m' m'' : ByteMem} {pages : List Nat}
    (h : Frame m'' m' pages) (h' : Frame m' m pages) : Frame m'' m pages :=
  fun pg hpg hout => (h pg hpg hout).trans (h' pg hpg hout)

theorem Frame.mono {m m' : ByteMem} {pages pages' : List Nat}
    (h : Frame m' m pages) (hsub : pages ⊆ pages') : Frame m' m pages' :=
  fun pg hpg hout => h pg hpg fun hin => hout (hsub hin)

/-- Two pages are equal or do not overlap. -/
theorem pages_apart {pg' : Nat} (hpg : pg % 4096 = 0) (hpg' : pg' % 4096 = 0) (hne : pg ≠ pg') :
    pg + 4096 ≤ pg' ∨ pg' + 4096 ≤ pg := by
  omega

theorem fill_frame (m : ByteMem) (c : UInt8) (hpg : pg % 4096 = 0) :
    Frame (m.fill pg c 4096) m [pg] := by
  intro other hother hout
  have hne : other ≠ pg := by simpa using hout
  exact ByteMem.fill_agreeOn m (pages_apart hother hpg hne)

theorem storeLE_frame (m : ByteMem) {i v : Nat} (hpg : pg % 4096 = 0) (hi : i < 512) :
    Frame (m.storeLE (pg + 8 * i) 8 v) m [pg] := by
  intro other hother hout
  have hne : other ≠ pg := by simpa using hout
  have happart := pages_apart hother hpg hne
  exact ByteMem.storeLE_agreeOn m (by omega)

theorem holds_kalloc {post : Option Nat → Phys → Prop} {onPanic : String → Prop} :
    kalloc.Holds s post onPanic ↔ (s.freelist = [] → post none s) ∧
      (∀ r rest, s.freelist = r :: rest →
        post (some r) { s with freelist := rest, mem := s.mem.fill r 5 4096 }) := by
  cases hlist : s.freelist with
  | nil => simp [kalloc, hlist]
  | cons r rest =>
    simp only [kalloc, holds_bind, holds_read, hlist, memset,
      holds_update, holds_pure, PGSIZE, reduceCtorEq, false_implies,
      List.cons.injEq, and_imp, true_and]
    constructor
    · rintro h r' rest' rfl rfl
      exact h
    · intro h
      exact h r rest rfl rfl

/-- Freeing a page of the managed range. -/
theorem holds_kfree {pa : Nat} {post : PUnit → Phys → Prop} {onPanic : String → Prop}
    (hpa : HeapPage s pa) :
    (kfree pa).Holds s post onPanic ↔ post ⟨⟩ { s with
        mem := s.mem.fill pa 1 4096
        freelist := pa :: s.freelist
        refreed := s.refreed || s.freelist.contains pa } := by
  obtain ⟨halign, hlo, hhi⟩ := hpa
  have hcheck : ¬ (pa % PGSIZE ≠ 0 ∨ pa < s.kend ∨ s.phystop ≤ pa) := by
    simp only [PGSIZE]
    omega
  rw [kfree, holds_bind, holds_read, holds_bind, holds_read, if_neg hcheck]
  simp only [holds_bind, memset, holds_update, pushFree, PGSIZE]

end EAFITos
