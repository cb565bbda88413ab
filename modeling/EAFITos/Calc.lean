/-
`parse_int` and `calc` of the shell `user/eafitos.c`, which compute with 32-bit integers.
-/
import Mathlib.Data.FinEnum
import Mathlib.Data.List.DropRight

namespace EAFITos.Repl

open List

def ch (c : Char) : UInt8 := c.toUInt8

def ascii (s : String) : List UInt8 := s.toList.map ch

/-- What a command prints; the text of `help_usage` is left out. -/
inductive Output where
  | usage
  | error (message : String)
  | info (message : String)
  | result (r : Int)
  deriving DecidableEq, Repr

/-- The 32-bit `int` that an operation leaves. -/
def wrap (x : Int) : Int := (x + 2 ^ 31) % 2 ^ 32 - 2 ^ 31

/-- The loop of `parse_int` over the digits. -/
def parseDigits (v : Int) : List UInt8 → Option Int
  | [] => some v
  | c :: s =>
    if c < ch '0' ∨ ch '9' < c then none
    else parseDigits (wrap (wrap (v * 10) + (c.toNat - 48))) s

/-- The sign, and the rest of the string. -/
def signed (s : List UInt8) : Int × List UInt8 :=
  if s.head? = some (ch '-') then (-1, s.tail) else (1, s)

def parseInt (s : List UInt8) : Option Int :=
  if (signed s).2 = [] then none
  else (parseDigits 0 (signed s).2).map fun v => wrap ((signed s).1 * v)

/-- The operators.  The quotient of the least `int` by -1 is the one of the `divw`
instruction. -/
def calculate (a b : Int) : List UInt8 → Output
  | [op] =>
    if op = ch '+' then .result (wrap (a + b))
    else if op = ch '-' then .result (wrap (a - b))
    else if op = ch '*' then .result (wrap (a * b))
    else if op = ch '/' then
      if b = 0 then .error "calc: división por cero." else .result (wrap (a.tdiv b))
    else if op = ch '%' then
      if b = 0 then .error "calc: división por cero." else .result (wrap (a.tmod b))
    else .error ("calc: operador no soportado: '" ++ String.singleton (Char.ofNat op.toNat) ++ "'")
  | _ => .error "calc: operador inválido"

def cmdCalc : List (List UInt8) → Output
  | [_, x, op, y] =>
    match parseInt x, parseInt y with
    | some a, some b => calculate a b op
    | _, _ => .error "calc: operandos inválidos (xv6: solo enteros)"
  | _ => .usage

/-- The values of an `int`. -/
def Fits (x : Int) : Prop := -2 ^ 31 ≤ x ∧ x < 2 ^ 31

def IsDigit (c : UInt8) : Prop := ch '0' ≤ c ∧ c ≤ ch '9'

instance : DecidablePred IsDigit := fun _ => inferInstanceAs (Decidable (_ ∧ _))

/-- The number that digits denote, after those that denote `v`. -/
def decimal (v : Int) (s : List UInt8) : Int := s.foldl (fun v c => v * 10 + (c.toNat - 48)) v

/-- The number that a string `-?[0-9]+` denotes. -/
def denoted (s : List UInt8) : Option Int :=
  if (signed s).2 ≠ [] ∧ ∀ c ∈ (signed s).2, IsDigit c then
    some ((signed s).1 * decimal 0 (signed s).2)
  else none

/-- The result over the integers. -/
def exactResult (a b : Int) (op : List UInt8) : Option Int :=
  if op = [ch '+'] then some (a + b)
  else if op = [ch '-'] then some (a - b)
  else if op = [ch '*'] then some (a * b)
  else if op = [ch '/'] ∧ b ≠ 0 then some (a.tdiv b)
  else if op = [ch '%'] ∧ b ≠ 0 then some (a.tmod b)
  else none

/-- `parse_int` reads the two operands as they are, or refuses them, and what `calc` prints is
the result over the integers. -/
def CalcExact (x op y : List UInt8) : Prop :=
  (∀ a, parseInt x = some a ↔ denoted x = some a ∧ Fits a) ∧
    (∀ b, parseInt y = some b ↔ denoted y = some b ∧ Fits b) ∧
    ∀ r, cmdCalc [ascii "calc", x, op, y] = .result r →
      ∃ a b, denoted x = some a ∧ denoted y = some b ∧ exactResult a b op = some r

/-- The operands and the result are values of an `int`. -/
def CalcFits (x op y : List UInt8) : Prop :=
  (∀ a, denoted x = some a → Fits a) ∧ (∀ b, denoted y = some b → Fits b) ∧
    ∀ a b r, denoted x = some a → denoted y = some b → exactResult a b op = some r → Fits r

theorem wrap_eq_iff {x : Int} : wrap x = x ↔ Fits x := by
  rw [wrap, Fits]
  omega

theorem parseDigits_wrap (v : Int) (s : List UInt8) : parseDigits (wrap v) s =
    if ∀ c ∈ s, IsDigit c then some (wrap (decimal v s)) else none := by
  induction s generalizing v with
  | nil => simp [parseDigits, decimal]
  | cons c s ih =>
    have hdigit : (c < ch '0' ∨ ch '9' < c) ↔ ¬ IsDigit c := by
      rw [IsDigit, not_and_or, UInt8.not_le, UInt8.not_le]
    have hstep : wrap (wrap (wrap v * 10) + (c.toNat - 48)) = wrap (v * 10 + (c.toNat - 48)) := by
      simp only [wrap]
      omega
    by_cases hc : IsDigit c
    · simp [parseDigits, hdigit, hc, hstep, ih, decimal]
    · simp [parseDigits, hdigit, hc]

theorem parseInt_eq (s : List UInt8) : parseInt s = (denoted s).map wrap := by
  have hsign : (signed s).1 = -1 ∨ (signed s).1 = 1 := by
    rw [signed]
    split <;> simp
  have hwrap : ∀ v, wrap ((signed s).1 * wrap v) = wrap ((signed s).1 * v) := by
    intro v
    obtain heq | heq := hsign
    all_goals
      simp only [wrap, heq]
      omega
  have hloop : parseDigits 0 _ = _ := parseDigits_wrap 0 (signed s).2
  rw [parseInt, denoted, hloop]
  by_cases hnil : (signed s).2 = []
  · simp [hnil]
  · simp [hnil, hwrap]

/-- Each operator leaves the result over the integers in 32 bits, or refuses. -/
theorem calculate_eq (a b : Int) (op : List UInt8) :
    (∃ message, calculate a b op = .error message) ∧ exactResult a b op = none ∨
      ∃ r, calculate a b op = .result (wrap r) ∧ exactResult a b op = some r := by
  rw [calculate.eq_def, exactResult]
  split
  · simp only [cons.injEq, and_true]
    split_ifs <;> simp_all
  · next hop =>
    have hne : ∀ c, op ≠ [c] := fun c heq => hop c heq
    simp [hne]

/-- `calc` is exact if and only if the operands and the result fit. -/
theorem calcExact_iff (x op y : List UInt8) : CalcExact x op y ↔ CalcFits x op y := by
  have hparse : ∀ s, (∀ a, parseInt s = some a ↔ denoted s = some a ∧ Fits a) ↔
      ∀ a, denoted s = some a → Fits a := by
    intro s
    rw [parseInt_eq]
    cases denoted s with
    | none => simp
    | some v =>
      simp only [Option.map_some, Option.some.injEq, forall_eq']
      constructor
      · intro h
        have hv := (h (wrap v)).mp rfl
        exact hv.1 ▸ hv.2
      · intro hv a
        rw [wrap_eq_iff.mpr hv]
        exact ⟨fun heq => ⟨heq, heq ▸ hv⟩, fun h => h.1⟩
  rw [CalcExact, CalcFits, hparse, hparse]
  refine and_congr_right fun hx => and_congr_right fun hy => ?_
  rw [cmdCalc, parseInt_eq, parseInt_eq]
  cases ha : denoted x with
  | none => simp
  | some a =>
    cases hb : denoted y with
    | none => simp
    | some b =>
      simp only [Option.map_some, wrap_eq_iff.mpr (hx a ha), wrap_eq_iff.mpr (hy b hb)]
      obtain ⟨⟨message, hbad⟩, hnone⟩ | ⟨r, hresult, hexact⟩ := calculate_eq a b op
      · rw [hbad]
        refine ⟨?_, nofun⟩
        rintro - _ _ r ⟨⟩ ⟨⟩ hr
        cases hnone.symm.trans hr
      · rw [hresult]
        constructor
        · rintro h _ _ r' ⟨⟩ ⟨⟩ hr
          obtain ⟨_, _, ⟨⟩, ⟨⟩, hwrap⟩ := h (wrap r) rfl
          cases hexact.symm.trans hr
          exact wrap_eq_iff.mp (Option.some.inj (hwrap.symm.trans hexact))
        · rintro h _ ⟨⟩
          refine ⟨a, b, rfl, rfl, ?_⟩
          rw [hexact, wrap_eq_iff.mpr (h a b r rfl rfl hexact)]

/-- The sum of the greatest `int` and 1, and an operand of 33 bits. -/
theorem calc_wraps :
    cmdCalc [ascii "calc", ascii "2147483647", ascii "+", ascii "1"] = .result (-2147483648) ∧
      ¬ CalcExact (ascii "2147483647") (ascii "+") (ascii "1") ∧
      parseInt (ascii "4294967296") = some 0 := by
  refine ⟨by decide +kernel, fun hexact => ?_, by decide +kernel⟩
  obtain ⟨a, b, ha, hb, hr⟩ := hexact.2.2 _ (by decide +kernel : _ = Output.result (-2147483648))
  have hx : denoted (ascii "2147483647") = some 2147483647 := by decide +kernel
  have hy : denoted (ascii "1") = some 1 := by decide +kernel
  cases hx.symm.trans ha
  cases hy.symm.trans hb
  exact absurd hr (by decide +kernel)

end EAFITos.Repl
