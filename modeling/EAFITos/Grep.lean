/-
`user/grep.c`: the matcher of patterns, and the loop that reads a file piece by piece and
writes the lines that match.  A C string is the list of its characters.
-/
import Mathlib.Data.List.Basic

namespace EAFITos.Grep

open List

/-! ## The matcher -/

mutual

def matchhere (re text : List Char) : Bool :=
  match re with
  | [] => true
  | c :: re =>
    if re.head? = some '*' then matchstar c re.tail text
    else if c = '$' ∧ re = [] then text = []
    else
      match text with
      | [] => false
      | t :: text => (c = '.' || c = t) && matchhere re text
termination_by (re.length, text.length, 0)
decreasing_by all_goals simp +arith [Prod.lex_def]

def matchstar (c : Char) (re text : List Char) : Bool :=
  matchhere re text ||
    match text with
    | [] => false
    | t :: text => (t = c || c = '.') && matchstar c re text
termination_by (re.length, text.length, 1)
decreasing_by all_goals simp +arith [Prod.lex_def]

end

/-- The loop of `match` over the beginnings in the text. -/
def matchLoop (re : List Char) : List Char → Bool
  | [] => matchhere re []
  | t :: text => matchhere re (t :: text) || matchLoop re text

/-- `match`. -/
def grepMatch (re text : List Char) : Bool :=
  if re.head? = some '^' then matchhere re.tail text else matchLoop re text

/-- An item of a pattern: a character, or any number of them. -/
inductive Item where
  | one (c : Char)
  | star (c : Char)
  deriving DecidableEq, Repr

/-- The items of a pattern, and whether a final `$` ends it. -/
def items : List Char → List Item × Bool
  | [] => ([], false)
  | [c] => if c = '$' then ([], true) else ([.one c], false)
  | c :: d :: re =>
    if d = '*' then (.star c :: (items re).1, (items re).2)
    else (.one c :: (items (d :: re)).1, (items (d :: re)).2)

/-- A dot stands for any character. -/
def Fits (c t : Char) : Prop := c = '.' ∨ c = t

/-- The strings that items stand for. -/
inductive Denotes : List Item → List Char → Prop
  | nil : Denotes [] []
  | one {c t : Char} {is : List Item} {s : List Char} (ht : Fits c t) (h : Denotes is s) :
      Denotes (.one c :: is) (t :: s)
  | star {c : Char} {is : List Item} {run s : List Char} (hrun : ∀ t ∈ run, Fits c t)
      (h : Denotes is s) : Denotes (.star c :: is) (run ++ s)

/-- A string that the items stand for begins the text, and ends it if the pattern says so. -/
def Begins (p : List Item × Bool) (text : List Char) : Prop :=
  ∃ s rest, text = s ++ rest ∧ Denotes p.1 s ∧ (p.2 = true → rest = [])

theorem matchstar_iff {c : Char} {re : List Char}
    (h : ∀ text, matchhere re text = true ↔ Begins (items re) text) (text : List Char) :
    matchstar c re text = true ↔ Begins (.star c :: (items re).1, (items re).2) text := by
  have hsplit : Begins (.star c :: (items re).1, (items re).2) text ↔
      ∃ run rest, text = run ++ rest ∧ (∀ t ∈ run, Fits c t) ∧ Begins (items re) rest := by
    constructor
    · rintro ⟨_, rest, rfl, hd, hend⟩
      cases hd with
      | star hrun hd => exact ⟨_, _, append_assoc _ _ _, hrun, _, rest, rfl, hd, hend⟩
    · rintro ⟨run, _, rfl, hrun, s, rest, rfl, hd, hend⟩
      exact ⟨run ++ s, rest, (append_assoc _ _ _).symm, .star hrun hd, hend⟩
  rw [hsplit]
  clear hsplit
  induction text with
  | nil =>
    simp only [matchstar, Bool.or_false, h]
    constructor
    · exact fun hhere => ⟨[], [], rfl, by simp, hhere⟩
    · rintro ⟨run, rest, hnil, -, hhere⟩
      rwa [(append_eq_nil_iff.mp hnil.symm).2] at hhere
  | cons t text ih =>
    simp only [matchstar, Bool.or_eq_true, h, Bool.and_eq_true, ih]
    constructor
    · rintro (hhere | ⟨ht, run, rest, rfl, hrun, hrest⟩)
      · exact ⟨[], _, rfl, by simp, hhere⟩
      · refine ⟨t :: run, rest, rfl, ?_, hrest⟩
        have hfits : Fits c t := by simpa [Fits, or_comm, eq_comm] using ht
        simpa using ⟨hfits, hrun⟩
    · rintro ⟨_ | ⟨t', run⟩, rest, htext, hrun, hrest⟩
      · exact .inl (by simpa [htext] using hrest)
      · obtain ⟨rfl, rfl⟩ := cons.inj htext
        have hfits : Fits c t := hrun t mem_cons_self
        refine .inr ⟨by simpa [Fits, or_comm, eq_comm] using hfits, run, rest, rfl, ?_, hrest⟩
        exact fun t ht => hrun t (mem_cons_of_mem _ ht)

theorem begins_one {c t : Char} {p : List Item × Bool} {text : List Char} :
    Begins (.one c :: p.1, p.2) (t :: text) ↔ Fits c t ∧ Begins p text := by
  constructor
  · rintro ⟨_, rest, htext, hd, hend⟩
    cases hd with
    | one ht hd =>
      obtain ⟨rfl, rfl⟩ := cons.inj htext
      exact ⟨ht, _, rest, rfl, hd, hend⟩
  · rintro ⟨ht, s, rest, rfl, hd, hend⟩
    exact ⟨t :: s, rest, rfl, .one ht hd, hend⟩

theorem not_begins_one {c : Char} {p : List Item × Bool} : ¬ Begins (.one c :: p.1, p.2) [] := by
  rintro ⟨_, rest, htext, hd, -⟩
  cases hd with
  | one ht hd => cases htext

theorem matchhere_iff (re text : List Char) :
    matchhere re text = true ↔ Begins (items re) text := by
  induction re using items.induct generalizing text with
  | case1 =>
    have hnil : Begins (items []) text := ⟨[], text, rfl, .nil, nofun⟩
    simp [matchhere, hnil]
  | case2 =>
    have hend : Begins ([], true) text ↔ text = [] := by
      constructor
      · rintro ⟨_, rest, rfl, ⟨⟩, hend⟩
        exact hend rfl
      · rintro rfl
        exact ⟨[], [], rfl, .nil, fun _ => rfl⟩
    rw [matchhere.eq_def]
    simp [items, hend]
  | case3 c hc =>
    have hitems : items [c] = (.one c :: (items []).1, (items []).2) := by simp [items, hc]
    rw [hitems]
    cases text with
    | nil => simp [matchhere, hc, not_begins_one]
    | cons t text =>
      have hnil : Begins (items []) text := ⟨[], text, rfl, .nil, nofun⟩
      simp [matchhere, hc, begins_one, hnil, Fits]
  | case4 c re ih => simpa [matchhere.eq_def (c :: _), items] using matchstar_iff ih text
  | case5 c d re hd ih =>
    rw [items, if_neg hd]
    cases text with
    | nil => simp [matchhere, hd, not_begins_one]
    | cons t text => simp [matchhere, hd, begins_one, ih, Fits]

/-- The pattern without the `^` that anchors it. -/
def unanchored (re : List Char) : List Char := if re.head? = some '^' then re.tail else re

/-- `match` finds a string that the items of the pattern stand for: at the beginning of the text if
the pattern is anchored, at the end if it is ended by `$`, and anywhere else. -/
theorem grepMatch_iff (re text : List Char) : grepMatch re text = true ↔
    ∃ before s after, text = before ++ s ++ after ∧ Denotes (items (unanchored re)).1 s ∧
      (re.head? = some '^' → before = []) ∧ ((items (unanchored re)).2 = true → after = []) := by
  have hloop : matchLoop re text = true ↔ ∃ before rest, text = before ++ rest ∧
      Begins (items re) rest := by
    induction text with
    | nil => simp [matchLoop, matchhere_iff]
    | cons t text ih =>
      simp only [matchLoop, Bool.or_eq_true, matchhere_iff, ih]
      constructor
      · rintro (hhere | ⟨before, rest, rfl, hrest⟩)
        · exact ⟨[], _, rfl, hhere⟩
        · exact ⟨t :: before, rest, rfl, hrest⟩
      · rintro ⟨_ | ⟨t', before⟩, rest, htext, hrest⟩
        · exact .inl (by simpa [htext] using hrest)
        · obtain ⟨rfl, rfl⟩ := cons.inj htext
          exact .inr ⟨before, rest, rfl, hrest⟩
  rw [grepMatch, unanchored]
  split
  · next hanchor =>
    rw [matchhere_iff]
    constructor
    · rintro ⟨s, rest, rfl, hd, hend⟩
      exact ⟨[], s, rest, rfl, hd, fun _ => rfl, hend⟩
    · rintro ⟨before, s, rest, rfl, hd, hbefore, hend⟩
      exact ⟨s, rest, by simp [hbefore hanchor], hd, hend⟩
  · next hanchor =>
    rw [hloop]
    constructor
    · rintro ⟨before, _, rfl, s, rest, rfl, hd, hend⟩
      exact ⟨before, s, rest, by simp, hd, fun h => absurd h hanchor, hend⟩
    · rintro ⟨before, s, rest, rfl, hd, -, hend⟩
      exact ⟨before, s ++ rest, by simp, s, rest, rfl, hd, hend⟩

/-! ## The lines of a file -/

/-- The inner loop of `grep`: `line` is what stands from `p` up to the rest of the buffer.  The
lines that are written, and what is left after the last newline. -/
def scanLines (pattern line : List Char) : List Char → List Char × List Char
  | [] => ([], line)
  | c :: rest =>
    if c = '\n' then
      let r := scanLines pattern [] rest
      ((if grepMatch pattern line then line ++ ['\n'] else []) ++ r.1, r.2)
    else scanLines pattern (line ++ [c]) rest

/-- The outer loop of `grep` with `kept` at the front of the buffer: `read` returns as many bytes
of the file as `size` says, at least one and at most what the buffer has room for. -/
def grepLoop (pattern : List Char) (size : Nat → Nat) (kept file : List Char) : List Char :=
  let n := min (size file.length + 1) (min (1023 - kept.length) file.length)
  if n = 0 then []
  else
    let r := scanLines pattern [] (kept ++ file.take n)
    r.1 ++ grepLoop pattern size r.2 (file.drop n)
termination_by file.length
decreasing_by
  simp only [length_drop]
  omega

/-- No line has more than 1023 bytes with its newline; `n` is how much of the first is gone. -/
def LinesFit (n : Nat) : List Char → Prop
  | [] => True
  | c :: rest => n < 1023 ∧ LinesFit (if c = '\n' then 0 else n + 1) rest

theorem scanLines_append (pattern line s t : List Char) :
    scanLines pattern line (s ++ t) =
      let r := scanLines pattern line s
      (r.1 ++ (scanLines pattern r.2 t).1, (scanLines pattern r.2 t).2) := by
  induction s generalizing line with
  | nil => simp [scanLines]
  | cons c s ih =>
    by_cases hc : c = '\n'
    · simp [scanLines, hc, ih]
    · simp [scanLines, hc, ih]

theorem scanLines_kept {line : List Char} (h : '\n' ∉ line) (pattern before : List Char) :
    scanLines pattern before line = ([], before ++ line) := by
  induction line generalizing before with
  | nil => simp [scanLines]
  | cons c line ih =>
    have hc : c ≠ '\n' := fun heq => h (heq ▸ mem_cons_self)
    simp [scanLines, hc, ih fun hmem => h (mem_cons_of_mem _ hmem)]

/-- What is left is the beginning of a line, and the rest of the file fits after it. -/
theorem scanLines_left (pattern line s t : List Char) (hline : '\n' ∉ line)
    (hfit : LinesFit line.length (s ++ t)) :
    '\n' ∉ (scanLines pattern line s).2 ∧ LinesFit (scanLines pattern line s).2.length t := by
  induction s generalizing line with
  | nil => exact ⟨hline, hfit⟩
  | cons c s ih =>
    rw [scanLines]
    by_cases hc : c = '\n'
    · simpa [hc] using ih [] not_mem_nil (by simpa [LinesFit, hc] using hfit.2)
    · simpa [hc] using ih (line ++ [c]) (by simp [hline, Ne.symm hc])
        (by simpa [LinesFit, hc] using hfit.2)

theorem grepLoop_eq (pattern : List Char) (size : Nat → Nat) {kept file : List Char}
    (hkept : '\n' ∉ kept) (hfit : LinesFit kept.length file) :
    grepLoop pattern size kept file = (scanLines pattern kept file).1 := by
  fun_induction grepLoop pattern size kept file with
  | case1 kept file n hn =>
    have hempty : file = [] := by
      cases file with
      | nil => rfl
      | cons c rest =>
        have hroom := hfit.1
        simp only [n, length_cons] at hn
        omega
    simp [hempty, scanLines]
  | case2 kept file n hn r ih =>
    have hr : r = scanLines pattern kept (file.take n) := by
      simp [r, scanLines_append, scanLines_kept hkept]
    have hsplit := scanLines_append pattern kept (file.take n) (file.drop n)
    have hleft := scanLines_left pattern kept (file.take n) (file.drop n) hkept
      (by rwa [take_append_drop])
    rw [take_append_drop] at hsplit
    rw [ih (hr ▸ hleft.1) (hr ▸ hleft.2), hsplit, hr]

/-- The newline-terminated lines that match, each with its newline. -/
def matchingLines (pattern file : List Char) : List Char :=
  ((file.splitOn '\n').dropLast.filter (grepMatch pattern)).flatMap (· ++ ['\n'])

theorem scanLines_eq (pattern line s : List Char) : (scanLines pattern line s).1 =
    (((s.splitOn '\n').modifyHead (line ++ ·)).dropLast.filter (grepMatch pattern)).flatMap
      (· ++ ['\n']) := by
  induction s generalizing line with
  | nil => simp [scanLines]
  | cons c s ih =>
    have hne := splitOn_ne_nil '\n' s
    rw [splitOn] at ih hne ⊢
    rw [splitOnP_cons_eq_if_modifyHead]
    by_cases hc : c = '\n'
    · have hrest : modifyHead (fun x => [] ++ x) (splitOnP (· == '\n') s) =
          splitOnP (· == '\n') s := by
        cases splitOnP (· == '\n') s <;> rfl
      have hih := ih []
      rw [hrest] at hih
      simp only [scanLines, hc, if_true, hih, beq_self_eq_true, modifyHead_cons, append_nil,
        dropLast_cons_of_ne_nil hne, filter_cons]
      split <;> simp
    · cases hs : splitOnP (· == '\n') s with
      | nil => exact absurd hs hne
      | cons first rest => simp [scanLines, hc, ih, hs]

/-- Whatever pieces `read` cuts the file into, `grep` writes the lines that match. -/
theorem grep_output (pattern : List Char) (size : Nat → Nat) {file : List Char}
    (hfit : LinesFit 0 file) :
    grepLoop pattern size [] file = matchingLines pattern file := by
  rw [grepLoop_eq pattern size not_mem_nil hfit, scanLines_eq, matchingLines]
  cases file.splitOn '\n' <;> rfl

/-- Two lines, byte by byte. -/
theorem grep_output_bytes : LinesFit 0 "ab\nb\n".toList ∧
    grepLoop ['a'] (fun _ => 0) [] "ab\nb\n".toList = matchingLines ['a'] "ab\nb\n".toList := by
  have hfit : LinesFit 0 "ab\nb\n".toList := by simp [LinesFit]
  exact ⟨hfit, grep_output ['a'] (fun _ => 0) hfit⟩

end EAFITos.Grep
