/-
The command history of the shell `user/eafitos.c`: a ring of lines.
-/
import Mathlib.Logic.Function.Basic

namespace EAFITos.Repl

open Function List

def MAXLINE : Nat := 256
def HIST_SIZE : Nat := 10

/-- `hist`, `hist_next` and `hist_count`; a slot is known by the string in it. -/
structure History where
  hist : Nat → List UInt8
  next : Nat
  count : Nat

def History.add (h : History) (line : List UInt8) : History :=
  if line = [] then h
  else
    { hist := update h.hist h.next (line.take (MAXLINE - 1))
      next := (h.next + 1) % HIST_SIZE
      count := if h.count < HIST_SIZE then h.count + 1 else h.count }

/-- The numbered lines that `history_print` prints. -/
def History.print (h : History) : List (Nat × List UInt8) :=
  let start := (h.next + HIST_SIZE - h.count) % HIST_SIZE
  (range h.count).map fun i => (i + 1, h.hist ((start + i) % HIST_SIZE))

def emptyHistory : History := ⟨fun _ => [], 0, 0⟩

def historyOf (lines : List (List UInt8)) : History := lines.foldl History.add emptyHistory

/-- The lines that are kept, cut to the size of a slot. -/
def keptLines (lines : List (List UInt8)) : List (List UInt8) :=
  (lines.filter (· ≠ [])).map (·.take (MAXLINE - 1))

/-- The ring after the lines `kept` have been added. -/
structure Records (h : History) (kept : List (List UInt8)) : Prop where
  next : h.next = kept.length % HIST_SIZE
  count : h.count = min HIST_SIZE kept.length
  slot : ∀ j line, kept[j]? = some line → kept.length ≤ j + HIST_SIZE →
    h.hist (j % HIST_SIZE) = line

theorem Records.add {h : History} {kept : List (List UInt8)} (hr : Records h kept)
    {line : List UInt8} (hne : line ≠ []) :
    Records (h.add line) (kept ++ [line.take (MAXLINE - 1)]) := by
  have hnext := hr.next
  have hcount := hr.count
  rw [History.add, if_neg hne]
  refine ⟨?_, ?_, fun j old hj hle => ?_⟩
  · simp only [length_append, length_singleton, HIST_SIZE] at hnext ⊢
    omega
  · dsimp only
    rw [length_append, length_singleton]
    split
    · omega
    · next hfull =>
      simp only [HIST_SIZE] at hfull hcount ⊢
      omega
  · simp only [length_append, length_singleton, HIST_SIZE] at hnext hle ⊢
    obtain hlt | heq | hgt := Nat.lt_trichotomy j kept.length
    · rw [getElem?_append_left hlt] at hj
      rw [update_of_ne (by omega)]
      exact hr.slot j old hj (by simp only [HIST_SIZE]; omega)
    · rw [heq, getElem?_concat_length] at hj
      rw [heq, ← hnext, update_self]
      exact Option.some.inj hj
    · rw [getElem?_eq_none (by simp; omega)] at hj
      cases hj

theorem records_foldl (lines : List (List UInt8)) {h : History} {kept : List (List UInt8)}
    (hr : Records h kept) : Records (lines.foldl History.add h) (kept ++ keptLines lines) := by
  induction lines generalizing h kept with
  | nil => simpa [keptLines] using hr
  | cons line lines ih =>
    by_cases hne : line = []
    · simpa [keptLines, hne, History.add] using ih hr
    · simpa [keptLines, hne] using ih (hr.add hne)

/-- `history_print` shows the last ten lines, oldest first, and the indices stay in the ring. -/
theorem history_shows (lines : List (List UInt8)) :
    (historyOf lines).print =
        ((keptLines lines).drop ((keptLines lines).length - HIST_SIZE)).zipIdx.map
          (fun x => (x.2 + 1, x.1)) ∧
      (historyOf lines).next < HIST_SIZE ∧ (historyOf lines).count ≤ HIST_SIZE := by
  have hr : Records (historyOf lines) (keptLines lines) :=
    records_foldl lines (⟨rfl, rfl, by simp⟩ : Records emptyHistory [])
  have hnext := hr.next
  have hcount := hr.count
  simp only [HIST_SIZE] at hnext hcount
  refine ⟨ext_getElem ?_ fun i hi hi' => ?_, by simp only [HIST_SIZE]; omega,
    by simp only [HIST_SIZE]; omega⟩
  · simp [History.print, hcount, HIST_SIZE]
    omega
  · simp only [History.print, length_map, length_range] at hi
    simp only [History.print, getElem_map, getElem_range, getElem_zipIdx, getElem_drop]
    refine Prod.ext (by simp) ?_
    rw [← hr.slot _ _ (getElem?_eq_getElem _) (by simp only [HIST_SIZE]; omega)]
    simp only [HIST_SIZE, hnext, hcount]
    congr 1
    omega

end EAFITos.Repl
