/-
`copyinstr` reads a string of the user page by page.  Unlike `copyin` and `copyout` it does not
materialise lazy pages, and it fails where the user would read zeros.
-/
import EAFITos.CopyExact

namespace EAFITos

open List Prog Option

variable {b : UInt8} {m : ByteMem}

/-! ## Strings in a memory that is read byte by byte -/

/-- The bytes from `a` on up to a NUL that is among the first `n`. -/
def scanStr (get : Nat → Option UInt8) : Nat → Nat → Option (List UInt8)
  | _, 0 => none
  | a, n + 1 =>
    match get a with
    | none => none
    | some b => if b = 0 then some [] else (scanStr get (a + 1) n).map (b :: ·)

/-- `str` with a NUL after it stands at `a`, within `n` bytes. -/
structure IsString (get : Nat → Option UInt8) (a n : Nat) (str : List UInt8) : Prop where
  fits : str.length < n
  nonzero : 0 ∉ str
  bytes : ∀ i, i < str.length → get (a + i) = some (str.getD i 0)
  nul : get (a + str.length) = some 0

section Scan

variable {get : Nat → Option UInt8} {a n : Nat} {str : List UInt8}

theorem IsString.cons (hb : b ≠ 0) (hget : get a = some b) (h : IsString get (a + 1) n str) :
    IsString get a (n + 1) (b :: str) := by
  refine ⟨Nat.succ_lt_succ h.fits, ?_, fun i hi => ?_, ?_⟩
  · rw [mem_cons]
    rintro (heq | hin)
    · exact hb heq.symm
    · exact h.nonzero hin
  · cases i with
    | zero => exact hget
    | succ i =>
      have hrest := h.bytes i (Nat.lt_of_succ_lt_succ hi)
      rwa [Nat.add_right_comm, Nat.add_assoc] at hrest
  · have hnul := h.nul
    rwa [Nat.add_right_comm, Nat.add_assoc] at hnul

theorem IsString.tail (h : IsString get a (n + 1) (b :: str)) :
    b ≠ 0 ∧ get a = some b ∧ IsString get (a + 1) n str := by
  have hmem := h.nonzero
  rw [mem_cons, not_or] at hmem
  refine ⟨fun heq => hmem.1 heq.symm, h.bytes 0 (Nat.succ_pos _),
    Nat.lt_of_succ_lt_succ h.fits, hmem.2, fun i hi => ?_, ?_⟩
  · have hrest := h.bytes (i + 1) (Nat.succ_lt_succ hi)
    rw [Nat.add_right_comm, Nat.add_assoc]
    exact hrest
  · have hnul := h.nul
    rw [Nat.add_right_comm, Nat.add_assoc]
    exact hnul

theorem scanStr_eq_some_iff : scanStr get a n = some str ↔ IsString get a n str := by
  induction n generalizing a str with
  | zero => exact ⟨nofun, fun h => absurd h.fits (Nat.not_lt_zero _)⟩
  | succ n ih =>
    rw [scanStr]
    cases hget : get a with
    | none =>
      refine ⟨nofun, fun h => ?_⟩
      cases str with
      | nil =>
        have hnul := h.nul
        rw [length_nil, Nat.add_zero, hget] at hnul
        cases hnul
      | cons b str =>
        rw [h.tail.2.1] at hget
        cases hget
    | some b =>
      dsimp only
      by_cases hb : b = 0
      · subst hb
        rw [if_pos rfl, some.injEq]
        constructor
        · rintro rfl
          exact ⟨Nat.succ_pos n, not_mem_nil, nofun, hget⟩
        · intro h
          cases str with
          | nil => rfl
          | cons b str =>
            obtain ⟨hne, heq, -⟩ := h.tail
            rw [hget] at heq
            exact absurd (some.inj heq).symm hne
      · rw [if_neg hb, map_eq_some_iff]
        constructor
        · rintro ⟨rest, hrest, rfl⟩
          exact (ih.mp hrest).cons hb hget
        · intro h
          cases str with
          | nil =>
            have hnul := h.nul
            rw [length_nil, Nat.add_zero, hget] at hnul
            exact absurd (some.inj hnul) hb
          | cons c rest =>
            obtain ⟨-, heq, htail⟩ := h.tail
            rw [hget] at heq
            exact ⟨rest, ih.mpr htail, by rw [some.inj heq]⟩

theorem scanStr_append (bytes : List UInt8)
    (hbytes : ∀ i, i < bytes.length → get (a + i) = some (bytes.getD i 0)) :
    scanStr get a (bytes.length + n) = match upToNul bytes with
      | some str => some str
      | none => (scanStr get (a + bytes.length) n).map (bytes ++ ·) := by
  induction bytes generalizing a with
  | nil =>
    rw [length_nil, Nat.zero_add, upToNul, Nat.add_zero]
    exact map_id'.symm
  | cons b bytes ih =>
    have hhead : get a = some b := hbytes 0 (Nat.succ_pos _)
    have htail : ∀ i, i < bytes.length → get (a + 1 + i) = some (bytes.getD i 0) := by
      intro i hi
      have hrest := hbytes (i + 1) (Nat.succ_lt_succ hi)
      rw [Nat.add_right_comm, Nat.add_assoc]
      exact hrest
    rw [length_cons, Nat.add_right_comm, scanStr, hhead, upToNul]
    dsimp only
    by_cases hb : b = 0
    · rw [if_pos hb, if_pos hb]
    · rw [if_neg hb, if_neg hb, ih htail]
      have hnext : a + 1 + bytes.length = a + (bytes.length + 1) := by omega
      rw [hnext]
      cases upToNul bytes with
      | some str => rfl
      | none =>
        rw [Option.map_none, Option.map_map]
        rfl

end Scan

/-! ## `copyinstr` -/

section Copyinstr

variable {s : Phys} {p : Proc} {root a max : Nat}

/-- The byte at `a` of a page that is mapped for the user. -/
def mappedByte (m : ByteMem) (root a : Nat) : Option UInt8 :=
  (userPa m root a).map fun pa => m (pa + a % 4096)

theorem mappedByte_of_page {pa b : Nat} (hpa : userPa m root a = some pa)
    (hpage : b / 4096 = a / 4096) : mappedByte m root b = some (m (pa + b % 4096)) := by
  have hmax : MAXVA = 2 ^ 38 := rfl
  have hb : userPa m root b = some pa := by
    rw [userPa, ite_none_right_eq_some] at hpa
    rw [userPa, if_pos (by omega), hpage]
    exact hpa.2
  rw [mappedByte, hb, map_some]

theorem copyinstrLoop_scans (fuel : Nat) (hfuel : max ≤ fuel) :
    (copyinstrLoop root fuel a max).Holds s
      (fun r s' => s' = s ∧ r = scanStr (mappedByte s.mem root) a max) (fun _ => False) := by
  induction fuel generalizing a max with
  | zero =>
    obtain rfl : max = 0 := Nat.le_zero.mp hfuel
    rw [copyinstrLoop, holds_pure]
    exact ⟨rfl, rfl⟩
  | succ fuel ih =>
    cases max with
    | zero =>
      rw [copyinstrLoop, holds_pure]
      exact ⟨rfl, rfl⟩
    | succ room =>
      have hdown : PGROUNDDOWN a = a / 4096 * 4096 := rfl
      have hoff : a - PGROUNDDOWN a = a % 4096 := by omega
      have hvpn : PGROUNDDOWN a / 4096 = a / 4096 := by omega
      have hmax : MAXVA = 2 ^ 38 := rfl
      have hsame : userPa s.mem root (PGROUNDDOWN a) = userPa s.mem root a := by
        rw [userPa, userPa, hvpn]
        by_cases hlt : a < MAXVA
        · rw [if_pos hlt, if_pos (by omega)]
        · rw [if_neg hlt, if_neg (by omega)]
      rw [copyinstrLoop, holds_bind, holds_walkaddr, hsame]
      cases hpa : userPa s.mem root a with
      | none =>
        dsimp only
        rw [holds_pure, scanStr, mappedByte, hpa]
        exact ⟨rfl, rfl⟩
      | some pa =>
        simp only [holds_bind, holds_read]
        have hpages : PGSIZE - a % 4096 = 4096 - a % 4096 := rfl
        have hnext : PGROUNDDOWN a + PGSIZE = a / 4096 * 4096 + 4096 := rfl
        rw [hoff, hpages, hnext]
        generalize hn : min (4096 - a % 4096) (room + 1) = n
        have hlen := ByteMem.length_loadBytes s.mem (pa + a % 4096) n
        have hbytes : ∀ i, i < (s.mem.loadBytes (pa + a % 4096) n).length →
            mappedByte s.mem root (a + i) =
              some ((s.mem.loadBytes (pa + a % 4096) n).getD i 0) := by
          intro i hi
          rw [hlen] at hi
          have hmod : (a + i) % 4096 = a % 4096 + i := by omega
          rw [ByteMem.getD_loadBytes _ hi, mappedByte_of_page hpa (by omega), hmod, Nat.add_assoc]
        have hscan := scanStr_append (n := room + 1 - n) (s.mem.loadBytes (pa + a % 4096) n) hbytes
        have hsum : n + (room + 1 - n) = room + 1 := by omega
        rw [hlen, hsum] at hscan
        rw [hscan]
        cases upToNul (s.mem.loadBytes (pa + a % 4096) n) with
        | some str =>
          dsimp only
          rw [holds_pure]
          exact ⟨rfl, rfl⟩
        | none =>
          dsimp only
          rw [holds_bind]
          refine (ih (by omega)).imp ?_
          rintro r s' ⟨rfl, hr⟩
          -- the next page begins where these bytes end, unless none are left to read
          have hrest : scanStr (mappedByte s'.mem root) (a / 4096 * 4096 + 4096)
              (room + 1 - n) = scanStr (mappedByte s'.mem root) (a + n) (room + 1 - n) := by
            by_cases hall : n = room + 1
            · rw [hall, Nat.sub_self]
              rfl
            · have haddr : a / 4096 * 4096 + 4096 = a + n := by omega
              rw [haddr]
          rw [hrest] at hr
          rw [← hr]
          cases r with
          | none =>
            dsimp only
            rw [holds_pure]
            exact ⟨rfl, rfl⟩
          | some rest =>
            dsimp only
            rw [holds_pure]
            exact ⟨rfl, rfl⟩

/-- The byte that the user reads at `a`: that of a mapped page, or the zero of a page that is
still lazy and that there is memory for. -/
def visibleByte (s : Phys) (p : Proc) (a : Nat) : Option UInt8 :=
  if a < MAXVA ∧ leafPte s.mem p.pagetable (a / 4096) = none then
    if a / 4096 < pgup p.sz ∧ need s.mem p.pagetable (a / 4096) ≤ s.freelist.length then some 0
    else none
  else mappedByte s.mem p.pagetable a

/-- The bytes from `a` on are mapped and no NUL, up to one on a page that is still lazy. -/
def MeetsLazy (s : Phys) (p : Proc) (a max : Nat) : Prop :=
  ∃ n, n < max ∧ (∀ i, i < n → ∃ b, b ≠ 0 ∧ mappedByte s.mem p.pagetable (a + i) = some b) ∧
    leafPte s.mem p.pagetable ((a + n) / 4096) = none ∧ visibleByte s p (a + n) = some 0

theorem mappedByte_leaf (h : mappedByte m root a = some b) :
    leafPte m root (a / 4096) ≠ none := by
  rw [mappedByte, map_eq_some_iff] at h
  obtain ⟨pa, hpa, -⟩ := h
  rw [userPa, ite_none_right_eq_some, bind_eq_some_iff] at hpa
  obtain ⟨-, pte, hpte, -⟩ := hpa
  rw [hpte]
  rintro ⟨⟩

/-- What is mapped is what the user reads. -/
theorem visibleByte_of_mapped (h : mappedByte s.mem p.pagetable a = some b) :
    visibleByte s p a = some b := by
  rw [visibleByte, if_neg fun hlazy => mappedByte_leaf h hlazy.2, h]

/-- What the user reads is mapped, or the zero of a lazy page. -/
theorem visibleByte_cases (h : visibleByte s p a = some b) :
    mappedByte s.mem p.pagetable a = some b ∨
      (b = 0 ∧ leafPte s.mem p.pagetable (a / 4096) = none) := by
  rw [visibleByte] at h
  split at h
  · next hlazy =>
    rw [ite_none_right_eq_some] at h
    exact Or.inr ⟨(some.inj h.2).symm, hlazy.2⟩
  · exact Or.inl h

/-- The string of mapped bytes is what the user reads exactly if no lazy page comes first. -/
theorem isString_iff_not_lazy {r : Option (List UInt8)}
    (hr : r = scanStr (mappedByte s.mem p.pagetable) a max) :
    (∀ str, r = some str ↔ IsString (visibleByte s p) a max str) ↔ ¬ MeetsLazy s p a max := by
  have hmapped : ∀ str, r = some str ↔ IsString (mappedByte s.mem p.pagetable) a max str := by
    intro str
    rw [hr, scanStr_eq_some_iff]
  constructor
  · rintro hall ⟨n, hn, hbefore, hnone, hzero⟩
    choose! byte hbyte using hbefore
    have hlen : ((List.range n).map byte).length = n := by
      rw [length_map, length_range]
    have hget : ∀ i, i < n → ((List.range n).map byte).getD i 0 = byte i := by
      intro i hi
      rw [getD_eq_getElem _ _ (by rw [hlen]; exact hi), getElem_map, getElem_range]
    have hstr : IsString (visibleByte s p) a max ((List.range n).map byte) := by
      refine ⟨by rw [hlen]; exact hn, fun hin => ?_, fun i hi => ?_, by rw [hlen]; exact hzero⟩
      · obtain ⟨i, hi, heq⟩ := mem_map.mp hin
        exact (hbyte i (mem_range.mp hi)).1 heq
      · rw [hlen] at hi
        rw [hget i hi]
        exact visibleByte_of_mapped (hbyte i hi).2
    have hnul := ((hmapped _).mp ((hall _).mpr hstr)).nul
    rw [hlen] at hnul
    exact mappedByte_leaf hnul hnone
  · intro hnot str
    rw [hmapped]
    constructor
    · intro h
      exact ⟨h.fits, h.nonzero, fun i hi => visibleByte_of_mapped (h.bytes i hi),
        visibleByte_of_mapped h.nul⟩
    · intro h
      have hbytes : ∀ i, i < str.length →
          mappedByte s.mem p.pagetable (a + i) = some (str.getD i 0) ∧ str.getD i 0 ≠ 0 := by
        intro i hi
        have hne : str.getD i 0 ≠ 0 := by
          rw [getD_eq_getElem _ _ hi]
          exact fun heq => h.nonzero (heq ▸ getElem_mem hi)
        obtain hmap | ⟨hzero, -⟩ := visibleByte_cases (h.bytes i hi)
        · exact ⟨hmap, hne⟩
        · exact absurd hzero hne
      refine ⟨h.fits, h.nonzero, fun i hi => (hbytes i hi).1, ?_⟩
      obtain hmap | ⟨-, hnone⟩ := visibleByte_cases h.nul
      · exact hmap
      · exact absurd ⟨str.length, h.fits, fun i hi => ⟨_, (hbytes i hi).2, (hbytes i hi).1⟩, hnone,
          h.nul⟩ hnot

theorem IsString.userBytes {str : List UInt8} (h : IsString (mappedByte s.mem root) a max str) :
    EAFITos.userBytes s.mem root a (str.length + 1) = str ++ [0] := by
  have hbyte : ∀ b c, mappedByte s.mem root b = some c → byteAt s.mem root b = c := by
    intro b c hb
    rw [mappedByte, map_eq_some_iff] at hb
    obtain ⟨pa, hpa, rfl⟩ := hb
    rw [userPa, ite_none_right_eq_some, bind_eq_some_iff] at hpa
    obtain ⟨-, pte, hpte, hif⟩ := hpa
    rw [ite_none_right_eq_some] at hif
    rw [byteAt_of_leaf hpte, ← some.inj hif.2]
  have hlast : byteAt s.mem root (a + str.length) = 0 := hbyte _ _ h.nul
  rw [EAFITos.userBytes, range_succ, map_append, map_singleton, hlast]
  congr 1
  refine ext_getElem (by rw [length_map, length_range]) fun i hi hi' => ?_
  rw [getElem_map, getElem_range, hbyte _ _ (h.bytes i hi'), getD_eq_getElem _ _ hi']

/-- `copyinstr` delivers the string that the user reads exactly when the bytes up to its NUL
meet no lazy page; what it delivers is what `copyin` delivers. -/
theorem copyinstr_iff_no_lazy (h : UserMemory s p) (a max : Nat) :
    (copyinstr p.pagetable a max).Holds s
      (fun r s' => s' = s ∧
        ((∀ str, r = some str ↔ IsString (visibleByte s p) a max str) ↔
          ¬ MeetsLazy s p a max) ∧
        ∀ str, r = some str →
          (copyin p.sz p.pagetable p.pagetable a (str.length + 1)).Holds s
            (fun r' _ => ∀ bytes, r' = some bytes → bytes = str ++ [0]) (fun _ => False))
      (fun _ => False) := by
  rw [copyinstr]
  refine (copyinstrLoop_scans max (le_refl max)).imp ?_
  rintro r s' ⟨hs, hr⟩
  refine ⟨hs, isString_iff_not_lazy hr, fun str hstr => ?_⟩
  have hstring : IsString (mappedByte s.mem p.pagetable) a max str := by
    rw [← scanStr_eq_some_iff, ← hr, hstr]
  refine (h.copyin_exact a (str.length + 1)).imp fun r' s'' hpost bytes hbytes => ?_
  rw [hpost.2.1 bytes hbytes, hstring.userBytes]

/-- Beyond the address space there is no string. -/
theorem copyinstr_iff_no_lazy_high : ∃ (s : Phys) (p : Proc), UserMemory s p ∧
    (copyinstr p.pagetable MAXVA 1).Holds s
      (fun r _ => ∀ str, r = some str ↔ IsString (visibleByte s p) MAXVA 1 str)
      (fun _ => False) := by
  obtain ⟨k, hk⟩ := small_boots
  refine ⟨k.phys, k.proc 0, hk.userMemory, ?_⟩
  refine (copyinstr_iff_no_lazy hk.userMemory MAXVA 1).imp fun r s' hpost => hpost.2.1.mpr ?_
  rintro ⟨n, -, -, -, hzero⟩
  have hhigh : ¬ MAXVA + n < MAXVA := by omega
  rw [visibleByte, if_neg fun hlazy => hhigh hlazy.1, mappedByte, userPa, if_neg hhigh] at hzero
  cases hzero

/-- On a page that is still lazy the user reads the empty string, and `copyinstr` fails. -/
theorem copyinstr_fails_on_lazy : ∃ (s : Phys) (p : Proc), UserMemory s p ∧
    IsString (visibleByte s p) 8192 1 [] ∧
    (copyinstr p.pagetable 8192 1).Holds s (fun r _ => r = none) (fun _ => False) := by
  obtain ⟨k, hk⟩ := small_boots
  obtain ⟨hmemory, hnone⟩ := hk.lazy
  refine ⟨k.phys, { k.proc 0 with sz := 12288 }, hmemory,
    ⟨Nat.one_pos, List.not_mem_nil, nofun, ?_⟩, ?_⟩
  · have hlow : 8192 < MAXVA := by decide
    have hpage : 2 < pgup 12288 := by decide
    have hneed : need k.phys.mem (k.proc 0).pagetable 2 ≤ k.phys.freelist.length := by
      have hle := missing_le k.phys.mem (k.proc 0).pagetable (2 * 4096)
      have hfree := hk.free
      rw [need, if_pos hnone]
      omega
    exact (if_pos ⟨hlow, hnone⟩).trans (if_pos ⟨hpage, hneed⟩)
  · rw [copyinstr]
    refine (copyinstrLoop_scans 1 (le_refl 1)).imp ?_
    rintro r s' ⟨-, rfl⟩
    have hbyte : mappedByte k.phys.mem (k.proc 0).pagetable 8192 = none := by
      cases hmapped : mappedByte k.phys.mem (k.proc 0).pagetable 8192 with
      | none => rfl
      | some b => exact absurd hnone (mappedByte_leaf hmapped)
    rw [scanStr]
    dsimp only
    rw [hbyte]

end Copyinstr

end EAFITos
