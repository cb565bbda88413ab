/-
What `kexec` builds: the image of a program is a function of the file and the
arguments alone, and the new page table shows exactly that image.
-/
import EAFITos.Image

namespace EAFITos

open List Prog Option

variable {a size table va stackbase : Nat} {bytes : List UInt8}

/-- The segment of `loadseg`, page by page. -/
def loadsegImage (file : List UInt8) (va offset sz : Nat) : Nat → Nat → Image → Option Image
  | 0, _, img => some img
  | n + 1, i, img =>
    let len := min (sz - i) PGSIZE
    let bytes := readi file ((offset + i) % 2 ^ 32) len
    if bytes.length ≠ len then none
    else loadsegImage file va offset sz n (i + PGSIZE) (img.store (va + i) bytes)

/-- The program headers, with `n` of them still to be read. -/
def loadProgramImage (file : List UInt8) : Nat → Nat → Image → Option Image
  | 0, _, img => some img
  | n + 1, off, img =>
    let bytes := readi file off proghdrSize
    let ph := parseProghdr bytes
    let next := (off + proghdrSize) % 2 ^ 32
    if bytes.length ≠ proghdrSize then none
    else if ph.type ≠ ELF_PROG_LOAD then loadProgramImage file n next img
    else if ph.memsz < ph.filesz then none
    else if (ph.vaddr + ph.memsz) % U64 < ph.vaddr then none
    else if ph.vaddr % PGSIZE ≠ 0 then none
    else
      let grown := img.grow ((ph.vaddr + ph.memsz) % U64)
        (PTE_R ||| PTE_U ||| flags2perm ph.flags)
      if grown.sz = 0 then none
      else
        (loadsegImage file ph.vaddr (ph.off % 2 ^ 32) (ph.filesz % 2 ^ 32)
          (pagesBelow 0 (ph.filesz % 2 ^ 32)) 0 grown).bind
          (loadProgramImage file n next)

/-- The argument strings on the stack. -/
def pushArgsImage (stackbase : Nat) :
    List (List UInt8) → List Nat → Nat → Image → Option (Image × Nat × List Nat)
  | [], ustack, sp, img => some (img, sp, ustack)
  | str :: rest, ustack, sp, img =>
    if ustack.length ≥ MAXARG then none
    else
      let top := sub64 sp (str.length + 1)
      let sp' := top - top % 16
      if sp' < stackbase then none
      else pushArgsImage stackbase rest (ustack ++ [sp']) sp' (img.store sp' (str ++ [0]))

/-- The guard page, the stack page and the arguments on it. -/
def stackImage (argv : List (List UInt8)) (img : Image) : Option (Image × Nat × Nat) :=
  let sz := PGROUNDUP img.sz
  let grown := Image.grow { img with sz := sz } ((sz + (USERSTACK + 1) * PGSIZE) % U64)
    (PTE_R ||| PTE_U ||| PTE_W)
  let guarded := grown.guard (sub64 grown.sz ((USERSTACK + 1) * PGSIZE) / 4096)
  let stackbase := sub64 grown.sz (USERSTACK * PGSIZE)
  (pushArgsImage stackbase argv [] grown.sz guarded).bind fun (img', sp, ustack) =>
    let top := sub64 sp ((ustack.length + 1) * 8)
    let sp' := top - top % 16
    if sp' < stackbase then none
    else some (img'.store sp' ((ustack ++ [0]).flatMap (leBytes 8)), sp', ustack.length)

/-- The whole image, the stack pointer and the number of arguments. -/
def execImage (file : List UInt8) (argv : List (List UInt8)) : Option (Image × Nat × Nat) :=
  let elf := parseElfhdr (readi file 0 elfhdrSize)
  (loadProgramImage file elf.phnum (elf.phoff % 2 ^ 32) Image.empty).bind (stackImage argv)

variable {s s' s'' : Phys} {root trapframe : Nat} {held : List Nat} {img : Image}

/-- A page table under construction that shows the image. -/
structure Building (s : Phys) (root trapframe : Nat) (held : List Nat) (img : Image) :
    Prop where
  sep : Sep s root userVpn held
  framed : Framed s root trapframe
  shows : Shows s root img
  room : s.phystop ≤ s.kend + 2 ^ 27

theorem trapframePte_user (trapframe : Nat) : hasFlag (trapframePte trapframe) PTE_U = false := by
  rw [trapframePte, hasFlag_mkPte (by decide) (by decide)]
  decide

theorem trampolinePte_user (s : Phys) : hasFlag (trampolinePte s) PTE_U = false := by
  rw [trampolinePte, hasFlag_mkPte (by decide) (by decide)]
  decide

theorem Framed.not_user (h : Framed s root trapframe) (hinv : PtInv s root) {vpn pte : Nat}
    (hlo : TFVPN ≤ vpn) (hvpn : vpn < 512 ^ 3) (hpte : leafPte s.mem root vpn = some pte) :
    hasFlag pte PTE_U = false := by
  have htf : TFVPN = 2 ^ 26 - 2 := rfl
  by_cases hhigh : 2 ^ 26 ≤ vpn
  · rw [hinv.leaf_high hhigh hvpn] at hpte
    exact absurd hpte (by simp)
  · obtain heq | heq : vpn = TFVPN ∨ vpn = TFVPN + 1 := by omega
    · rw [heq, h.trapframe] at hpte
      rw [← some.inj hpte]
      exact trapframePte_user trapframe
    · rw [heq, h.trampoline] at hpte
      rw [← some.inj hpte]
      exact trampolinePte_user s

namespace Building

theorem userEnv (h : Building s root trapframe held img) :
    UserEnv s root userVpn held 0 where
  sep := h.sep
  small := Nat.zero_le _
  owns := fun vpn hlt => absurd hlt (Nat.not_lt_zero vpn)
  user := fun vpn hkeep => userVpn_iff.1 hkeep
  pages := fun vpn pte hvpn hpte huser => by
    left
    rw [userVpn_iff]
    by_contra hge
    rw [h.framed.not_user h.sep.inv (by omega) hvpn hpte] at huser
    exact absurd huser (by decide)

/-- An image is no larger than memory. -/
theorem pages_le (h : Building s root trapframe held img) : pgup img.sz ≤ 2 ^ 15 := by
  have htf : TFVPN = 2 ^ 26 - 2 := rfl
  have hle := h.shows.pages_le
  refine h.sep.mapped_le h.room (by omega) fun vpn hlt => ⟨userVpn_iff.2 (by omega), ?_⟩
  obtain ⟨pte, hpte, _⟩ := h.shows.mapped vpn hlt
  rw [hpte]
  exact some_ne_none pte

theorem free_le (h : Building s root trapframe held img) : s.freelist.length ≤ 2 ^ 15 := by
  have hgood := h.sep.good
  exact hgood.left.length_le h.room

theorem room_of_moved (h : Building s root trapframe held img)
    (hmoved : Moved s' s root userVpn held held) : s'.phystop ≤ s'.kend + 2 ^ 27 := by
  rw [hmoved.shift.bounds.phystop, hmoved.shift.bounds.kend]
  exact h.room

/-- Bytes written through the table go to the image. -/
theorem store (h : Building s root trapframe held img)
    (hmoved : Moved s' s root userVpn held held) (hleaves : SameLeaves s' s root)
    (hwritten : Written s' s root userVpn a bytes) :
    Building s' root trapframe held (img.store a bytes) where
  sep := hmoved.sep h.sep
  framed := h.framed.congr hmoved.shift.bounds fun vpn _ hlt => hleaves vpn (by omega)
  shows := h.shows.store hleaves hwritten
  room := h.room_of_moved hmoved

/-- `uvmalloc` grows the image. -/
theorem uvmalloc (h : Building s root trapframe held img) {newsz xperm : Nat}
    (hperm : PTE_R ||| PTE_U ||| xperm < 1024) :
    (uvmalloc root img.sz newsz xperm).Holds s (fun r s' => Moved s' s root userVpn held held ∧
        ((r = max newsz img.sz ∧ Building s' root trapframe held
              (img.grow newsz (PTE_R ||| PTE_U ||| xperm))) ∨
          (r = 0 ∧ Building s' root trapframe held img))) (fun _ => False) := by
  have htf : TFVPN = 2 ^ 26 - 2 := rfl
  have htop : leafPte s.mem root TFVPN ≠ none := by
    rw [h.framed.trapframe]
    exact some_ne_none _
  refine (uvmalloc_spec h.sep (Or.inl ⟨htop, by decide⟩) h.shows.fits hperm (fun vpn _ _ hlt => userVpn_iff.2 hlt)
    (fun vpn hlo _ hlt => h.shows.empty vpn hlo hlt)).mono ?_ ?_
  rotate_left
  · rintro _ ⟨-, hfull⟩
    have hpages := h.pages_le
    have hfree := h.free_le
    omega
  rintro r s' ⟨hmoved, ⟨hr, hfits, hpop, _⟩ | ⟨hr, hview⟩⟩
  · refine ⟨hmoved, Or.inl ⟨hr, hmoved.sep h.sep, ?_, h.shows.grow hpop hperm hfits,
      h.room_of_moved hmoved⟩⟩
    apply h.framed.congr hmoved.shift.bounds
    intro vpn hlo hlt
    have hle : pgup (max newsz img.sz) ≤ TFVPN := pgup_le hfits
    have hmono : pgup newsz ≤ pgup (max newsz img.sz) := pgup_mono (Nat.le_max_left _ _)
    have hsame := (hpop vpn (by omega)).2 (by omega)
    rw [leafPte_eq_view _ _ userVpn, hsame, ← leafPte_eq_view]
  · refine ⟨hmoved, Or.inr ⟨hr, hmoved.sep h.sep, ?_, h.shows.congr hview, h.room_of_moved hmoved⟩⟩
    exact h.framed.congr hmoved.shift.bounds fun vpn _ hlt => hview.leaves vpn (by omega)

/-- Rounding the size up to a page changes no mapping. -/
theorem roundUp (h : Building s root trapframe held img) :
    Building s root trapframe held { img with sz := PGROUNDUP img.sz } := by
  have hfits : img.sz ≤ TFVPN * 4096 := h.shows.fits
  have hround : PGROUNDUP img.sz = pgup img.sz * 4096 := PGROUNDUP_eq (hfits.trans (by decide))
  have hpages : pgup (PGROUNDUP img.sz) = pgup img.sz := by
    rw [hround, pgup]
    omega
  refine ⟨h.sep, h.framed, ⟨?_, ?_, ?_, ?_⟩, h.room⟩
  · intro vpn hlt
    exact h.shows.mapped vpn (hpages ▸ hlt)
  · intro vpn hlo hlt
    exact h.shows.empty vpn (hpages ▸ hlo) hlt
  · intro a hlt
    exact h.shows.bytes a (hpages ▸ hlt)
  · rw [hround]
    exact Nat.mul_le_mul_right 4096 h.shows.pages_le

end Building

section Loading

variable {file : List UInt8}

theorem length_readi_le (file : List UInt8) (off n : Nat) : (readi file off n).length ≤ n := by
  rw [readi]
  split
  · exact Nat.zero_le _
  · rw [length_take]
    omega

/-- Every page of the image is the user's: there is no guard page yet. -/
def AllUser (img : Image) : Prop :=
  ∀ vpn, vpn < pgup img.sz → hasFlag (img.flags vpn) PTE_U = true

theorem AllUser.grow (h : AllUser img) (newsz xperm : Nat) :
    AllUser (img.grow newsz (PTE_R ||| PTE_U ||| xperm)) := by
  intro vpn _
  rw [Image.grow]
  dsimp only
  split
  · exact h vpn ‹_›
  · rw [hasFlag_or, hasFlag_or, hasFlag_or]
    rfl

/-- Where the image has a page of the user, `walkaddr` finds it. -/
theorem Building.userPa_ne_none (h : Building s root trapframe held img) (huser : AllUser img)
    (hva : va < img.sz) : userPa s.mem root va ≠ none := by
  have hfits : img.sz ≤ TFVPN * 4096 := h.shows.fits
  have htf : TFVPN = 2 ^ 26 - 2 := rfl
  have hmax : MAXVA = 2 ^ 38 := rfl
  have hvpn : va / 4096 < pgup img.sz := by
    rw [pgup]
    omega
  obtain ⟨pte, hpte, hflags⟩ := h.shows.mapped _ hvpn
  have hU : hasFlag pte PTE_U = true := by
    rw [← hasFlag_flags _ _ (by decide), hflags]
    exact huser _ hvpn
  rw [userPa, if_pos (by omega), hpte, bind_some, if_pos hU]
  exact some_ne_none _

theorem loadsegLoop_spec {offset sz : Nat} (hva : va % 4096 = 0) (n : Nat) {i : Nat}
    (hi : i % 4096 = 0) (hn : n = pagesBelow i sz) (h : Building s root trapframe held img)
    (huser : AllUser img) (hend : va + sz ≤ img.sz) :
    (loadsegLoop root va file offset sz n i).Holds s
      (fun r s' => Moved s' s root userVpn held held ∧
        ∃ img', img'.sz = img.sz ∧ AllUser img' ∧ Building s' root trapframe held img' ∧
          ((r = 0 ∧ loadsegImage file va offset sz n i img = some img') ∨ r = -1))
      (fun _ => False) := by
  induction n generalizing s i img with
  | zero =>
    rw [loadsegLoop, holds_pure]
    exact ⟨Moved.refl h.sep.inv, img, rfl, huser, h, Or.inl ⟨rfl, rfl⟩⟩
  | succ n ih =>
    have hfits : img.sz ≤ TFVPN * 4096 := h.shows.fits
    have htf : TFVPN = 2 ^ 26 - 2 := rfl
    have hu64 : U64 = 2 ^ 64 := rfl
    have hlt : i < sz := by
      rw [pagesBelow] at hn
      omega
    have hwrap : (va + i) % U64 = va + i := Nat.mod_eq_of_lt (by omega)
    rw [loadsegLoop, holds_bind, holds_walkaddr, hwrap]
    cases hpa : userPa s.mem root (va + i) with
    | none => exact absurd hpa (h.userPa_ne_none huser (by omega))
    | some pa =>
      dsimp only
      rw [userPa] at hpa
      split at hpa
      · rename_i hmax
        rw [bind_eq_some_iff] at hpa
        obtain ⟨pte, hpte, hif⟩ := hpa
        split at hif
        · rename_i hU
          rw [← some.inj hif, loadsegImage]
          have halign : (va + i) % 4096 = 0 := by omega
          have hread := length_readi_le file ((offset + i) % 2 ^ 32) (min (sz - i) PGSIZE)
          generalize hbytes : readi file ((offset + i) % 2 ^ 32) (min (sz - i) PGSIZE) =
            bytes at hread
          have hfit : (va + i) % 4096 + bytes.length ≤ 4096 := by
            have hpg : PGSIZE = 4096 := rfl
            omega
          obtain ⟨hmoved1, hleaves1, hwritten1⟩ := written_store h.userEnv
            (by omega) hpte hU hfit rfl
          rw [halign, Nat.add_zero] at hmoved1 hleaves1 hwritten1
          rw [holds_bind, holds_update]
          have h1 := h.store hmoved1 hleaves1 hwritten1
          by_cases hshort : bytes.length ≠ min (sz - i) PGSIZE
          · rw [if_pos hshort, holds_pure]
            exact ⟨hmoved1, img.store (va + i) bytes, rfl, huser, h1, Or.inr rfl⟩
          · rw [if_neg hshort]
            have hpg : i + PGSIZE = i + 4096 := rfl
            have hn' : n = pagesBelow (i + PGSIZE) sz := by
              rw [hpg, pagesBelow]
              rw [pagesBelow] at hn
              omega
            refine (ih (by omega) hn' h1 huser hend).imp ?_
            rintro r s' ⟨hmoved, img', hsz, huser', hbuilding, hr⟩
            refine ⟨hmoved.trans hmoved1, img', hsz, huser', hbuilding, ?_⟩
            rw [if_neg hshort]
            exact hr
        · exact absurd hif (by simp)
      · exact absurd hpa (by simp)

theorem field_lt (bytes : List UInt8) (off width : Nat) :
    field bytes off width < 256 ^ width := ByteMem.loadLE_lt _ _ _

theorem flags2perm_lt (flags : Nat) : PTE_R ||| PTE_U ||| flags2perm flags < 1024 := by
  rw [flags2perm]
  split <;> split <;> decide

/-- What a part of `kexec` leaves: the image it should have built, or an error with
the size of what it has built. -/
def BuildPost {α : Type} (s : Phys) (root trapframe : Nat) (held : List Nat)
    (good : α → Image → Prop) (r : Except Nat α) (s' : Phys) : Prop :=
  Moved s' s root userVpn held held ∧
    match r with
    | .ok a => ∃ img', good a img' ∧ Building s' root trapframe held img'
    | .error sz => ∃ img', sz = img'.sz ∧ Building s' root trapframe held img'

theorem BuildPost.trans {α : Type} {good good' : α → Image → Prop} {r : Except Nat α}
    (h : BuildPost s' root trapframe held good r s'') (hmoved : Moved s' s root userVpn held held)
    (hgood : ∀ a img', good a img' → good' a img') :
    BuildPost s root trapframe held good' r s'' := by
  refine ⟨h.1.trans hmoved, ?_⟩
  have hcase := h.2
  cases r with
  | ok a =>
    obtain ⟨img', hg, hbuilding⟩ := hcase
    exact ⟨img', hgood a img' hg, hbuilding⟩
  | error sz => exact hcase

theorem Building.buildPost_error {α : Type} {good : α → Image → Prop}
    (h : Building s' root trapframe held img) (hmoved : Moved s' s root userVpn held held) :
    BuildPost s root trapframe held good (.error img.sz) s' := ⟨hmoved, img, rfl, h⟩

theorem loadProgram_spec (n : Nat) {off : Nat} (h : Building s root trapframe held img)
    (huser : AllUser img) :
    (loadProgram root file n off img.sz).Holds s (BuildPost s root trapframe held fun sz img' =>
        loadProgramImage file n off img = some img' ∧ sz = img'.sz)
      (fun _ => False) := by
  induction n generalizing s off img with
  | zero =>
    rw [loadProgram, holds_pure]
    exact ⟨Moved.refl h.sep.inv, img, ⟨rfl, rfl⟩, h⟩
  | succ n ih =>
    have hrefl : Moved s s root userVpn held held := Moved.refl h.sep.inv
    rw [loadProgram, loadProgramImage]
    dsimp only
    split
    · rw [holds_pure]
      exact h.buildPost_error hrefl
    split
    · exact ih h huser
    split
    · rw [holds_pure]
      exact h.buildPost_error hrefl
    split
    · rw [holds_pure]
      exact h.buildPost_error hrefl
    split
    · rw [holds_pure]
      exact h.buildPost_error hrefl
    rename_i _ _ hmemsz hwrap halign
    generalize hph : parseProghdr (readi file off proghdrSize) = ph at *
    have hmemlt : ph.memsz < 2 ^ 64 := hph ▸ field_lt _ 40 8
    have halign' : ph.vaddr % 4096 = 0 := not_not.1 halign
    have hend : ph.vaddr + ph.filesz % 2 ^ 32 ≤ (ph.vaddr + ph.memsz) % U64 := by
      have hwrap' : ¬ (ph.vaddr + ph.memsz) % 2 ^ 64 < ph.vaddr := hwrap
      change _ ≤ (ph.vaddr + ph.memsz) % 2 ^ 64
      omega
    rw [holds_bind]
    refine (h.uvmalloc (flags2perm_lt ph.flags)).imp ?_
    rintro sz1 s1 ⟨hmoved1, ⟨hsz1, h1⟩ | ⟨hsz1, h1⟩⟩
    · have huser1 := huser.grow ((ph.vaddr + ph.memsz) % U64) (flags2perm ph.flags)
      generalize hgrown : img.grow ((ph.vaddr + ph.memsz) % U64)
        (PTE_R ||| PTE_U ||| flags2perm ph.flags) = grown at h1 huser1 ⊢
      have hgsz : sz1 = grown.sz := by
        rw [hsz1, ← hgrown]
        rfl
      rw [hgsz]
      split
      · rename_i hzero
        rw [holds_pure]
        have hold : img.sz = 0 := by omega
        rw [hold, ← hzero]
        exact h1.buildPost_error hmoved1
      rw [holds_bind, loadseg]
      refine (loadsegLoop_spec halign' _ rfl rfl h1 huser1 (by omega)).imp ?_
      rintro r s2 ⟨hmoved2, img2, hsz2, huser2, h2, ⟨hr, himg2⟩ | hr⟩
      · rw [hr, if_neg (by decide), himg2, bind_some, ← hsz2]
        exact (ih h2 huser2).imp fun r s' hpost =>
          hpost.trans (hmoved2.trans hmoved1) fun _ _ hgood => hgood
      · rw [hr, if_pos (by decide), holds_pure, ← hsz2]
        exact h2.buildPost_error (hmoved2.trans hmoved1)
    · rw [hsz1, if_pos rfl, holds_pure]
      exact h1.buildPost_error hmoved1

end Loading

section Stack

theorem sub64_eq {b : Nat} (hle : b ≤ a) (ha : a < U64) : sub64 a b = a - b := by
  have hu64 : U64 = 2 ^ 64 := rfl
  rw [sub64, hu64, Nat.mod_eq_of_lt (a := b) (by omega)]
  omega

theorem length_flatMap_leBytes (width : Nat) (values : List Nat) :
    (values.flatMap (leBytes width)).length = values.length * width := by
  induction values with
  | nil => rw [flatMap_nil, length_nil, length_nil, Nat.zero_mul]
  | cons v rest ih =>
    rw [flatMap_cons, length_append, ih, leBytes, length_map,
      length_range, length_cons, Nat.succ_mul, Nat.add_comm]

/-- `uvmclear` makes a page of the image a guard page. -/
theorem Building.uvmclear (h : Building s root trapframe held img) (hva : va < MAXVA)
    (hlt : va / 4096 < pgup img.sz) :
    (uvmclear root va).Holds s (fun _ s' => Moved s' s root userVpn held held ∧
        Building s' root trapframe held (img.guard (va / 4096))) (fun _ => False) := by
  have htf : TFVPN = 2 ^ 26 - 2 := rfl
  have hle := h.shows.pages_le
  obtain ⟨pte, hpte, hflags⟩ := h.shows.mapped _ hlt
  rw [EAFITos.uvmclear, holds_bind, holds_walk_noalloc hva]
  rcases pteSlot_cases s.mem root va with ⟨_, hleaf⟩ | ⟨t, ht, hslot, hleaf⟩
  · rw [hleaf] at hpte
    exact absurd hpte (by simp)
  rw [hslot]
  simp only [holds_bind, loadPte, holds_read, storePte, holds_update]
  have hload : s.mem.loadLE (t + 8 * (va / 4096 % 512)) 8 = pte ∧ pte % 2 = 1 := by
    rw [hpte] at hleaf
    split at hleaf
    · rename_i hvalid
      rw [some.inj hleaf]
      exact ⟨rfl, hvalid⟩
    · exact absurd hleaf (by simp)
  have hbound : pte < 256 ^ 8 := hload.1 ▸ ByteMem.loadLE_lt _ _ _
  rw [hload.1]
  obtain ⟨hpa, hclear, hlow⟩ := clear_PTE_U pte
  have hrwx := (hasFlag_rwx_congr hlow).trans (h.sep.inv.leaf _ pte (by omega) hpte)
  have hlt' : pte - (pte &&& PTE_U) < 256 ^ 8 := Nat.lt_of_le_of_lt (Nat.sub_le _ _) hbound
  generalize pte - (pte &&& PTE_U) = v at *
  obtain ⟨hmoved, hleaf', hpages⟩ := moved_reflag h.sep (by omega) ht hpte hlt' (by omega)
    hrwx hpa rfl
  generalize { s with mem := s.mem.storeLE (t + 8 * (va / 4096 % 512)) 8 v } = s'
    at hmoved hleaf' hpages ⊢
  refine ⟨hmoved, hmoved.sep h.sep, ?_, ⟨?_, ?_, ?_, h.shows.fits⟩, h.room_of_moved hmoved⟩
  · apply h.framed.congr hmoved.shift.bounds
    intro vpn hlo hhi
    rw [hleaf' vpn (by omega), if_neg (by omega)]
  · intro vpn hvpn
    have hvpn' : vpn < pgup img.sz := hvpn
    rw [hleaf' vpn (by omega), Image.guard]
    by_cases heq : vpn = va / 4096
    · refine ⟨_, if_pos heq, ?_⟩
      rw [hclear, hflags, ← heq]
      exact (if_pos rfl).symm
    · rw [if_neg heq]
      dsimp only
      rw [if_neg heq]
      exact h.shows.mapped vpn hvpn'
  · intro vpn hlo hhi
    have hlo' : pgup img.sz ≤ vpn := hlo
    rw [hleaf' vpn (by omega), if_neg (by omega)]
    exact h.shows.empty vpn hlo' hhi
  · intro a ha
    have ha' : a / 4096 < pgup img.sz := ha
    obtain ⟨pte', hpte', _⟩ := h.shows.mapped _ ha'
    have hsame := hpages _ pte' (by omega) (userVpn_iff.2 (by omega)) hpte'
    have hbyte : s'.mem (PTE2PA pte' + a % 4096) = s.mem (PTE2PA pte' + a % 4096) :=
      hsame _ (by omega) (by omega)
    change byteAt s'.mem root a = img.bytes a
    rw [← h.shows.bytes a ha', byteAt_of_leaf hpte', ← hbyte]
    have hleafa := hleaf' (a / 4096) (by omega)
    by_cases heq : a / 4096 = va / 4096
    · rw [if_pos heq] at hleafa
      rw [heq, hpte] at hpte'
      rw [byteAt_of_leaf hleafa, hpa, some.inj hpte']
    · rw [if_neg heq] at hleafa
      rw [byteAt_of_leaf (hleafa.trans hpte')]

/-- The stack page at the end of an image. -/
structure StackPage (img : Image) (stackbase : Nat) : Prop where
  size : img.sz = stackbase + 4096
  aligned : stackbase % 4096 = 0
  above : 4096 ≤ stackbase
  flags : img.flags (stackbase / 4096) = PTE_R ||| PTE_U ||| PTE_W ||| PTE_V

theorem Building.copyout (h : Building s root trapframe held img)
    (hstack : StackPage img stackbase) (hlo : stackbase ≤ a) (hhi : a + bytes.length ≤ img.sz) :
    (copyout size table root a bytes).Holds s
      (fun r s' => r = 0 ∧ Moved s' s root userVpn held held ∧
        Building s' root trapframe held (img.store a bytes)) (fun _ => False) := by
  have hsize := hstack.size
  have haligned := hstack.aligned
  have hfits : img.sz ≤ TFVPN * 4096 := h.shows.fits
  have htf : TFVPN = 2 ^ 26 - 2 := rfl
  have hmax : MAXVA = 2 ^ 38 := rfl
  refine (copyout_mapped h.userEnv ?_).imp ?_
  · intro x hlox hhix
    have hpage : x / 4096 = stackbase / 4096 := by omega
    have hlt : x / 4096 < pgup img.sz := by
      rw [pgup]
      omega
    obtain ⟨pte, hpte, hflags⟩ := h.shows.mapped _ hlt
    rw [hpage, hstack.flags] at hflags
    refine ⟨by omega, pte, hpte, ?_, ?_⟩
    · rw [← hasFlag_flags _ _ (by decide), hflags]
      decide
    · rw [← hasFlag_flags _ _ (by decide), hflags]
      decide
  · rintro r s' ⟨hr, hmoved, hleaves, hwritten, _⟩
    exact ⟨hr, hmoved, h.store hmoved hleaves hwritten⟩

theorem StackPage.store (h : StackPage img stackbase) : StackPage (img.store a bytes) stackbase :=
  ⟨h.size, h.aligned, h.above, h.flags⟩

/-- The argument strings end up where the image has them. -/
theorem pushArgs_spec (argv : List (List UInt8)) {ustack : List Nat} {sp : Nat}
    (h : Building s root trapframe held img) (hstack : StackPage img stackbase)
    (hlo : stackbase ≤ sp) (hhi : sp ≤ img.sz) (hustack : ustack.length ≤ MAXARG)
    (hargs : ∀ str ∈ argv, str.length < 4096) :
    (pushArgs size table root stackbase argv ustack sp).Holds s
      (fun r s' => Moved s' s root userVpn held held ∧
        ∃ img', img'.sz = img.sz ∧ Building s' root trapframe held img' ∧
          ∀ sp' ustack', r = some (sp', ustack') →
            pushArgsImage stackbase argv ustack sp img = some (img', sp', ustack') ∧
              StackPage img' stackbase ∧ stackbase ≤ sp' ∧ sp' ≤ img.sz ∧ ustack'.length ≤ MAXARG)
      (fun _ => False) := by
  have hfits : img.sz ≤ TFVPN * 4096 := h.shows.fits
  have htf : TFVPN = 2 ^ 26 - 2 := rfl
  have hu64 : U64 = 2 ^ 64 := rfl
  have habove := hstack.above
  induction argv generalizing s ustack sp img with
  | nil =>
    rw [pushArgs, holds_pure]
    refine ⟨Moved.refl h.sep.inv, img, rfl, h, ?_⟩
    intro sp' ustack' heq
    cases heq
    exact ⟨rfl, hstack, hlo, hhi, hustack⟩
  | cons str rest ih =>
    have hlen : str.length < 4096 := hargs str mem_cons_self
    rw [pushArgs]
    simp only [pushArgsImage]
    rw [sub64_eq (by omega) (by omega)]
    split
    · rw [holds_pure]
      exact ⟨Moved.refl h.sep.inv, img, rfl, h, fun _ _ heq => absurd heq (by simp)⟩
    generalize htop : sp - (str.length + 1) - (sp - (str.length + 1)) % 16 = top
    split
    · rw [holds_pure]
      exact ⟨Moved.refl h.sep.inv, img, rfl, h, fun _ _ heq => absurd heq (by simp)⟩
    rename_i hroom hbase
    have hstr : (str ++ [0]).length = str.length + 1 := length_append
    rw [holds_bind]
    refine (h.copyout hstack (by omega) (by rw [hstr]; omega)).imp ?_
    rintro r s1 ⟨hr, hmoved1, h1⟩
    rw [hr, if_neg (by decide)]
    refine (ih h1 hstack.store (by omega) (by change top ≤ img.sz; omega)
      (by rw [length_append, length_singleton]; omega)
      (fun str' hmem => hargs str' (mem_cons_of_mem _ hmem)) hfits).imp ?_
    rintro r' s' ⟨hmoved, img', hsz, h', hresult⟩
    exact ⟨hmoved.trans hmoved1, img', hsz, h', hresult⟩

theorem buildStack_spec {argv : List (List UInt8)} (h : Building s root trapframe held img)
    (hargs : ∀ str ∈ argv, str.length < 4096) :
    (buildStack size table root argv img.sz).Holds s (BuildPost s root trapframe held fun r img' =>
        stackImage argv img = some (img', r.2) ∧ r.1 = img'.sz)
      (fun _ => False) := by
  have hfits : img.sz ≤ TFVPN * 4096 := h.shows.fits
  have htf : TFVPN = 2 ^ 26 - 2 := rfl
  have hu64 : U64 = 2 ^ 64 := rfl
  have hmaxva : MAXVA = 2 ^ 38 := rfl
  have hround : PGROUNDUP img.sz = pgup img.sz * 4096 := PGROUNDUP_eq (hfits.trans (by decide))
  have hpages : pgup img.sz ≤ TFVPN := pgup_le hfits
  have h0 := h.roundUp
  have hstacksz : (USERSTACK + 1) * PGSIZE = 8192 := rfl
  have honesz : USERSTACK * PGSIZE = 4096 := rfl
  rw [buildStack, hstacksz, honesz, holds_bind]
  have hnew : (PGROUNDUP img.sz + 8192) % U64 = PGROUNDUP img.sz + 8192 :=
    Nat.mod_eq_of_lt (by omega)
  simp only [stackImage, hstacksz, honesz]
  rw [hnew]
  have hbound : PGROUNDUP img.sz ≤ TFVPN * 4096 := by omega
  generalize PGROUNDUP img.sz = base at *
  refine (h0.uvmalloc (by decide)).imp ?_
  rintro sz1 s1 ⟨hmoved1, ⟨hsz1, h1⟩ | ⟨hsz1, h1⟩⟩
  · have hsz1' : sz1 = base + 8192 := by
      rw [hsz1]
      exact Nat.max_eq_left (Nat.le_add_right _ _)
    generalize hgrown : Image.grow { img with sz := base }
      (base + 8192) (PTE_R ||| PTE_U ||| PTE_W) = grown at h1 ⊢
    have hgsz : grown.sz = base + 8192 := by
      rw [← hgrown]
      exact Nat.max_eq_left (Nat.le_add_right _ _)
    have hgflags : grown.flags ((base + 4096) / 4096) = PTE_R ||| PTE_U ||| PTE_W ||| PTE_V := by
      rw [← hgrown]
      apply if_neg
      rw [pgup]
      dsimp only
      omega
    rw [hsz1', if_neg (by omega), holds_bind, sub64_eq (by omega) (by omega),
      sub64_eq (by omega) (by omega), hgsz, sub64_eq (by omega) (by omega),
      sub64_eq (by omega) (by omega)]
    have hbase : base + 8192 - 4096 = base + 4096 := Nat.add_sub_assoc (by decide) base
    rw [Nat.add_sub_cancel, hbase]
    have hguardlt : base / 4096 < pgup grown.sz := by
      rw [pgup]
      omega
    refine (h1.uvmclear (by omega) hguardlt).mono ?_ (by rintro _ ⟨⟩)
    rintro _ s2 ⟨hmoved2, h2⟩
    have hstack : StackPage (grown.guard (base / 4096)) (base + 4096) := by
      refine ⟨by change grown.sz = _; omega, by omega, by omega, ?_⟩
      rw [Image.guard]
      dsimp only
      rw [if_neg (by omega)]
      exact hgflags
    have hgsz' : (grown.guard (base / 4096)).sz = base + 8192 := hgsz
    rw [holds_bind]
    refine (pushArgs_spec argv h2 hstack (by omega) hgsz'.ge (Nat.zero_le _) hargs).mono ?_ (by rintro _ ⟨⟩)
    rintro r s3 ⟨hmoved3, img3, hsz3, h3, hresult⟩
    have hmoved13 := hmoved3.trans (hmoved2.trans hmoved1)
    have hsz3' : base + 8192 = img3.sz := by rw [hsz3, hgsz']
    cases r with
    | none =>
      rw [holds_pure, hsz3']
      exact h3.buildPost_error hmoved13
    | some pair =>
      obtain ⟨sp, ustack⟩ := pair
      obtain ⟨himg3, hstack3, hlo, hhi, hustack⟩ := hresult sp ustack rfl
      have hmaxarg : MAXARG = 32 := rfl
      rw [himg3, bind_some]
      dsimp only
      have hargc : (ustack.length + 1) * 8 ≤ sp := by omega
      rw [sub64_eq hargc (by omega)]
      generalize htop : sp - (ustack.length + 1) * 8 - (sp - (ustack.length + 1) * 8) % 16 = top
      split
      · rw [holds_pure, hsz3']
        exact h3.buildPost_error hmoved13
      rename_i hroom
      have hroom' : top + (ustack.length + 1) * 8 ≤ img3.sz := by
        refine Nat.le_trans ?_ (hhi.trans hsz3.ge)
        omega
      have hbytes : ((ustack ++ [0]).flatMap (leBytes 8)).length = (ustack.length + 1) * 8 := by
        rw [length_flatMap_leBytes, length_append, length_singleton]
      rw [holds_bind]
      refine (h3.copyout hstack3 (by omega) (by rw [hbytes]; exact hroom')).mono ?_ (by rintro _ ⟨⟩)
      rintro r s4 ⟨hr, hmoved4, h4⟩
      rw [hr, if_neg (by decide), holds_pure]
      exact ⟨hmoved4.trans hmoved13, _, ⟨rfl, hsz3'⟩, h4⟩
  · rw [hsz1, if_pos rfl, holds_pure]
    exact h1.buildPost_error hmoved1

theorem buildImage_spec {file : List UInt8} {argv : List (List UInt8)}
    (h : Building s root trapframe held Image.empty) (hargs : ∀ str ∈ argv, str.length < 4096) :
    (buildImage size table root file (parseElfhdr (readi file 0 elfhdrSize)) argv).Holds s
      (BuildPost s root trapframe held fun r img' =>
        execImage file argv = some (img', r.2) ∧ r.1 = img'.sz)
      (fun _ => False) := by
  rw [buildImage, holds_bind]
  refine (loadProgram_spec _ h fun vpn hlt => absurd hlt (Nat.not_lt_zero vpn)).imp ?_
  rintro (sz | sz) s1 ⟨hmoved1, hcase⟩
  · rw [holds_pure]
    exact ⟨hmoved1, hcase⟩
  · obtain ⟨img1, ⟨himg1, hsz⟩, h1⟩ := hcase
    rw [hsz]
    refine (buildStack_spec h1 hargs).imp fun r s' hpost => ?_
    refine hpost.trans hmoved1 fun r img' hgood => ?_
    rw [execImage, himg1, bind_some]
    exact hgood

end Stack

end EAFITos
