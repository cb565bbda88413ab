/-
State-passing programs that return a value, panic with a message, or exhaust
the bound of a recursion, with the rules of pre- and postconditions by which
the rest of the development reasons about them.
-/
import Mathlib.Logic.Basic

universe u v w

/-- What one run of a program ends in. -/
inductive Outcome (σ : Type u) (α : Type v) where
  | ok (value : α) (state : σ)
  | panic (message : String)
  | stuck

/-- The value of a run that returns. -/
def Outcome.value? {σ : Type u} {α : Type v} : Outcome σ α → Option α
  | .ok value _ => some value
  | _ => none

/-- A program over the state `σ` with result type `α`. -/
def Prog (σ : Type u) (α : Type v) : Type (max u v) := σ → Outcome σ α

namespace Prog

variable {σ : Type u} {τ : Type w} {α β γ : Type v}

def ret (value : α) : Prog σ α := fun s => .ok value s

def andThen (x : Prog σ α) (f : α → Prog σ β) : Prog σ β := fun s =>
  match x s with
  | .ok value s' => f value s'
  | .panic message => .panic message
  | .stuck => .stuck

instance : Monad (Prog σ) where
  pure := ret
  bind := andThen

def panic (message : String) : Prog σ α := fun _ => .panic message

/-- A recursion that has used up its bound. -/
def stuck : Prog σ α := fun _ => .stuck

def read (f : σ → α) : Prog σ α := fun s => .ok (f s) s

def update (f : σ → σ) : Prog σ PUnit := fun s => .ok ⟨⟩ (f s)

/-- Run a program only where a condition holds. -/
def when (p : Prop) [Decidable p] (x : Prog σ PUnit) : Prog σ PUnit :=
  if p then x else ret ⟨⟩

/-- Run `body` on every element of a list in turn. -/
def forEach (body : γ → Prog σ PUnit) : List γ → Prog σ PUnit
  | [] => ret ⟨⟩
  | x :: rest => andThen (body x) fun _ => forEach body rest

/-- Run a program on a component of a larger state. -/
def zoom (view : τ → σ) (put : σ → τ → τ) (x : Prog σ α) : Prog τ α := fun t =>
  match x (view t) with
  | .ok value s => .ok value (put s t)
  | .panic message => .panic message
  | .stuck => .stuck

/-- The program ends from `s` in a value and state satisfying `post`, or in a
panic whose message satisfies `onPanic`; it never exhausts a bound. -/
def Holds (x : Prog σ α) (s : σ) (post : α → σ → Prop)
    (onPanic : String → Prop) : Prop :=
  match x s with
  | .ok value s' => post value s'
  | .panic message => onPanic message
  | .stuck => False

variable {x : Prog σ α} {s s' : σ} {post post' : α → σ → Prop}
  {onPanic onPanic' : String → Prop} {message : String}

section

variable (h : x.Holds s post onPanic)
include h

theorem Holds.mono (hpost : ∀ value s', post value s' → post' value s')
    (hpanic : ∀ message, onPanic message → onPanic' message) : x.Holds s post' onPanic' := by
  unfold Holds at *
  cases hrun : x s with
  | ok value s' => simpa [hrun] using hpost value s' (by simpa [hrun] using h)
  | panic message => simpa [hrun] using hpanic message (by simpa [hrun] using h)
  | stuck => simp [hrun] at h

theorem Holds.imp (hpost : ∀ value s', post value s' → post' value s') : x.Holds s post' onPanic :=
  h.mono hpost fun _ hmessage => hmessage

theorem Holds.and (h' : x.Holds s post' onPanic') :
    x.Holds s (fun value s' => post value s' ∧ post' value s')
      (fun message => onPanic message ∧ onPanic' message) := by
  unfold Holds at *
  cases hrun : x s <;> simp_all

theorem Holds.of_ok {value : α} (hrun : x s = .ok value s') : post value s' := by
  simpa [Holds, hrun] using h

end

theorem Holds.exists_ok (h : x.Holds s post fun _ => False) :
    ∃ value s', x s = .ok value s' ∧ post value s' := by
  unfold Holds at h
  cases hrun : x s with
  | ok value s' => exact ⟨value, s', rfl, by simpa [hrun] using h⟩
  | panic message => simp [hrun] at h
  | stuck => simp [hrun] at h

theorem holds_of_ok {value : α} (hrun : x s = .ok value s')
    (h : post value s') : x.Holds s post onPanic := by
  simpa [Holds, hrun] using h

@[simp] theorem holds_pure (value : α) :
    (pure value : Prog σ α).Holds s post onPanic ↔ post value s := Iff.rfl

@[simp] theorem holds_ret (value : α) :
    (ret value : Prog σ α).Holds s post onPanic ↔ post value s := Iff.rfl

@[simp] theorem holds_panic (message : String) :
    (panic message : Prog σ α).Holds s post onPanic ↔ onPanic message := Iff.rfl

@[simp] theorem holds_read (f : σ → α) :
    (read f).Holds s post onPanic ↔ post (f s) s := Iff.rfl

@[simp] theorem holds_update (f : σ → σ) {post : PUnit → σ → Prop} :
    (update f).Holds s post onPanic ↔ post ⟨⟩ (f s) := Iff.rfl

theorem holds_andThen (f : α → Prog σ β) {post : β → σ → Prop} :
    (x.andThen f).Holds s post onPanic ↔
      x.Holds s (fun value s' => (f value).Holds s' post onPanic) onPanic := by
  unfold Holds andThen
  cases x s <;> rfl

@[simp] theorem holds_bind (f : α → Prog σ β) {post : β → σ → Prop} :
    (x >>= f).Holds s post onPanic ↔
      x.Holds s (fun value s' => (f value).Holds s' post onPanic) onPanic := holds_andThen f

@[simp] theorem holds_ite {p : Prop} [Decidable p] {y : Prog σ α} :
    (if p then x else y).Holds s post onPanic ↔
      (p → x.Holds s post onPanic) ∧ (¬ p → y.Holds s post onPanic) := by
  by_cases hp : p <;> simp [hp]

theorem holds_when {p : Prop} [Decidable p] {x : Prog σ PUnit} {post : PUnit → σ → Prop} :
    (Prog.when p x).Holds s post onPanic ↔ (p → x.Holds s post onPanic) ∧ (¬ p → post ⟨⟩ s) := by
  rw [Prog.when, holds_ite]
  rfl

theorem Holds.bind {f : α → Prog σ β} {post' : β → σ → Prop} (h : x.Holds s post onPanic)
    (hnext : ∀ value s', post value s' → (f value).Holds s' post' onPanic) :
    (x >>= f).Holds s post' onPanic := (holds_bind f).2 (h.imp hnext)

/-- The loop rule: an invariant that speaks of the elements still to come. -/
theorem holds_forEach {body : γ → Prog σ PUnit} (inv : List γ → σ → Prop)
    (hstep : ∀ y rest s, inv (y :: rest) s → (body y).Holds s (fun _ s' => inv rest s') onPanic)
    (l : List γ) (hinv : inv l s) :
    (forEach body l).Holds s (fun _ s' => inv [] s') onPanic := by
  induction l generalizing s with
  | nil => exact hinv
  | cons y rest ih =>
    rw [forEach, holds_andThen]
    exact (hstep y rest s hinv).imp fun _ s' h => ih h

theorem holds_zoom {view : τ → σ} {put : σ → τ → τ} {t : τ} {post : α → τ → Prop} :
    (zoom view put x).Holds t post onPanic ↔
      x.Holds (view t) (fun value s' => post value (put s' t)) onPanic := by
  unfold Holds zoom
  cases x (view t) <;> rfl

-- Proofs go by the rules above; unfolding a run inside a goal only costs time.
attribute [irreducible] Holds

end Prog
