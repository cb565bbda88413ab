/-
Machines given by a partial next-state function, the states their runs reach when
every step meets a condition, and the rule by which invariants are proved.
-/
import Mathlib.Logic.Basic

universe u v

namespace Machine

open List Option

variable {σ : Type u} {ε : Type v}

/-- The state after a list of events, if each of them was enabled. -/
def run (next : σ → ε → Option σ) : σ → List ε → Option σ
  | s, [] => some s
  | s, e :: rest => (next s e).bind fun s' => run next s' rest

/-- The states reached from `init` by steps that meet `ok`. -/
inductive Reach (next : σ → ε → Option σ) (ok : σ → ε → Prop) (init : σ → Prop) : σ → Prop
  | start {s : σ} : init s → Reach next ok init s
  | step {s s' : σ} {e : ε} : Reach next ok init s → ok s e → next s e = some s' →
      Reach next ok init s'

variable {next : σ → ε → Option σ} {ok : σ → ε → Prop} {init : σ → Prop} {s s' : σ}

/-- A guarded step that was taken found its guard true. -/
theorem of_guard {c : Prop} [Decidable c] (h : (if c then some s else none) = some s') :
    c ∧ s = s' := by
  obtain ⟨hc, heq⟩ := ite_none_right_eq_some.mp h
  exact ⟨hc, some.inj heq⟩

/-- What holds initially and is kept by every step holds in every reached state. -/
theorem Reach.invariant {P : σ → Prop} (hinit : ∀ s, init s → P s)
    (hstep : ∀ s e s', P s → ok s e → next s e = some s' → P s')
    (h : Reach next ok init s) : P s := by
  induction h with
  | start hs => exact hinit _ hs
  | step _ hok hnext ih => exact hstep _ _ _ ih hok hnext

/-- A run of events that always meet the condition reaches its last state. -/
theorem Reach.of_run {events : List ε} (h : Reach next ok init s)
    (hok : ∀ e ∈ events, ∀ s, ok s e) (hrun : run next s events = some s') :
    Reach next ok init s' := by
  induction events generalizing s with
  | nil =>
    rw [run] at hrun
    exact some.inj hrun ▸ h
  | cons e rest ih =>
    rw [run, bind_eq_some_iff] at hrun
    obtain ⟨s1, hnext, hrest⟩ := hrun
    have hstep := h.step (hok e mem_cons_self s) hnext
    exact ih hstep (fun e he => hok e (mem_cons_of_mem _ he)) hrest

/-- A run whose steps pass a test that implies the condition reaches its last state. -/
theorem Reach.of_guarded_run {test : σ → ε → Bool} {events : List ε}
    (htest : ∀ s e, test s e → ok s e) (h : Reach next ok init s)
    (hrun : run (fun s e => if test s e then next s e else none) s events = some s') :
    Reach next ok init s' := by
  induction events generalizing s with
  | nil =>
    rw [run] at hrun
    exact some.inj hrun ▸ h
  | cons e rest ih =>
    rw [run, bind_eq_some_iff] at hrun
    obtain ⟨s1, hnext, hrest⟩ := hrun
    obtain ⟨hpass, hnext⟩ := ite_none_right_eq_some.mp hnext
    exact ih (h.step (htest s e hpass) hnext) hrest

/-- A machine with a record of its history, on which no step depends. -/
def withHistory {γ : Type*} (next : σ → ε → Option σ) (record : σ → γ → ε → σ → γ) :
    σ × γ → ε → Option (σ × γ) :=
  fun p e => (next p.1 e).map fun s' => (s', record p.1 p.2 e s')

theorem withHistory_eq_some {γ : Type*} {record : σ → γ → ε → σ → γ} {p p' : σ × γ} {e : ε} :
    withHistory next record p e = some p' ↔
      next p.1 e = some p'.1 ∧ p'.2 = record p.1 p.2 e p'.1 := by
  rw [withHistory, map_eq_some_iff]
  constructor
  · rintro ⟨s', hnext, rfl⟩
    exact ⟨hnext, rfl⟩
  · rintro ⟨hnext, hrecord⟩
    exact ⟨p'.1, hnext, by rw [← hrecord]⟩

/-- Where every state but a goal has a step that lowers a rank, a run leads to a goal. -/
theorem exists_run_of_rank {P goal : σ → Prop} {kind : ε → Prop} (rank : σ → Nat)
    (hstep : ∀ s, P s → ¬ goal s → ∃ e s', kind e ∧ next s e = some s' ∧ P s' ∧ rank s' < rank s)
    (h : P s) : ∃ events s', (∀ e ∈ events, kind e) ∧ run next s events = some s' ∧ P s' ∧ goal s' := by
  induction hn : rank s using Nat.strongRecOn generalizing s with
  | ind n ih =>
    by_cases hgoal : goal s
    · exact ⟨[], s, by simp, rfl, h, hgoal⟩
    · obtain ⟨e, s1, hkind, hnext, h1, hlt⟩ := hstep s h hgoal
      obtain ⟨events, s', hevents, hrun, h', hgoal'⟩ := ih (rank s1) (hn ▸ hlt) h1 rfl
      refine ⟨e :: events, s', ?_, by rw [run, hnext]; exact hrun, h', hgoal'⟩
      intro e' he'
      rcases mem_cons.mp he' with rfl | he'
      · exact hkind
      · exact hevents e' he'

end Machine
