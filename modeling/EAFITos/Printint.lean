/-
`printint` of `kernel/printf.c` and of `user/printf.c`: the numerals that they write, and what
`parse_int` reads in them.
-/
import Mathlib.Data.Nat.Digits.Defs
import EAFITos.Calc

namespace EAFITos

open List Repl

/-- The bases that `printf` asks for. -/
inductive Base where
  | dec
  | hex

def Base.radix : Base → Nat
  | .dec => 10
  | .hex => 16

/-- `do { buf[i++] = digits[x % base]; } while((x /= base) != 0);` -/
def digitLoop (digits : String) (base : Base) (x : Nat) : List Char :=
  digits.toList.getD (x % base.radix) '0' ::
    if x / base.radix = 0 then [] else digitLoop digits base (x / base.radix)
termination_by x
decreasing_by
  have hpos : x ≠ 0 := by
    rintro rfl
    simp_all
  exact Nat.div_lt_self (Nat.pos_of_ne_zero hpos) (by cases base <;> decide)

/-- What `printint` leaves in `buf`; it is emitted from the end. -/
def printint (digits : String) (xx : BitVec 64) (base : Base) (sign : Bool) : List Char :=
  let neg := sign && xx.toInt < 0
  let x := if neg then -xx else xx
  digitLoop digits base x.toNat ++ if neg then ['-'] else []

def kernelPrintint : BitVec 64 → Base → Bool → List Char := printint "0123456789abcdef"

def userPrintint : BitVec 64 → Base → Bool → List Char := printint "0123456789ABCDEF"

/-- The value that is printed, and its numeral. -/
def shown (xx : BitVec 64) (sign : Bool) : Int := if sign then xx.toInt else xx.toNat

def numeral (base : Base) (v : Int) : List Char :=
  (if v < 0 then ['-'] else []) ++ base.radix.toDigits v.natAbs

section Digits

variable {digits : String} {base : Base} {f : Char → Char}

theorem one_lt_radix : 1 < base.radix := by
  cases base <;> decide

/-- The loop writes the digits of the numeral, the last one first. -/
theorem digitLoop_reverse (x : Nat)
    (h : ∀ i < base.radix, digits.toList.getD i '0' = f i.digitChar) :
    (digitLoop digits base x).reverse = (base.radix.toDigits x).map f := by
  have hpos : 0 < base.radix := Nat.lt_of_succ_lt one_lt_radix
  fun_induction digitLoop digits base x with
  | case1 x ih =>
    rw [reverse_cons, h _ (Nat.mod_lt x hpos), Nat.toDigits_eq_if one_lt_radix]
    by_cases hlt : x < base.radix
    · simp [hlt, Nat.div_eq_of_lt, Nat.mod_eq_of_lt]
    · have hne : x / base.radix ≠ 0 := (Nat.div_pos (Nat.le_of_not_lt hlt) hpos).ne'
      simp [hlt, hne, ih hne]

theorem printint_neg (xx : BitVec 64) (sign : Bool) :
    (sign && xx.toInt < 0) = decide (shown xx sign < 0) := by
  cases sign <;> simp [shown]

theorem printint_abs (xx : BitVec 64) (sign : Bool) :
    (if (sign && xx.toInt < 0) = true then -xx else xx).toNat = (shown xx sign).natAbs := by
  have hint := BitVec.toInt_eq_toNat_cond xx
  have hlt := xx.isLt
  cases sign with
  | false => simp [shown]
  | true =>
    simp only [shown, Bool.true_and, decide_eq_true_eq, if_true]
    split
    · rw [BitVec.toNat_neg]
      omega
    · omega

theorem printint_reverse (xx : BitVec 64) (sign : Bool) (hminus : f '-' = '-')
    (h : ∀ i < base.radix, digits.toList.getD i '0' = f i.digitChar) :
    (printint digits xx base sign).reverse = (numeral base (shown xx sign)).map f := by
  simp only [printint, printint_abs, reverse_append, digitLoop_reverse _ h, numeral, map_append]
  rw [printint_neg]
  by_cases hneg : shown xx sign < 0 <;> simp [hneg, hminus]

/-- 20 digits without a sign, or 19 with one. -/
theorem numeral_length (xx : BitVec 64) (base : Base) (sign : Bool) :
    (numeral base (shown xx sign)).length ≤ 20 := by
  have hlt := xx.isLt
  have hint := BitVec.toInt_eq_toNat_cond xx
  have hdigits : ∀ {n k : Nat}, 0 < k → n < 10 ^ k → (base.radix.toDigits n).length ≤ k := by
    intro n k hk hn
    refine (Nat.length_toDigits_le_iff one_lt_radix hk).mpr (Nat.lt_of_lt_of_le hn ?_)
    exact Nat.pow_le_pow_left (by cases base <;> decide) k
  rw [numeral, length_append]
  by_cases hneg : shown xx sign < 0
  · have hsmall : (shown xx sign).natAbs < 10 ^ 19 := by
      cases sign <;> simp only [shown] at hneg ⊢ <;> omega
    have hle := hdigits (by decide) hsmall
    simp only [hneg, if_true, length_singleton]
    omega
  · have hsmall : (shown xx sign).natAbs < 10 ^ 20 := by
      cases sign <;> simp only [shown] at hneg ⊢ <;> omega
    simpa [hneg] using hdigits (by decide) hsmall

end Digits

theorem isDigit_ch {c : Char} (h : c.isDigit = true) :
    IsDigit (ch c) ∧ (ch c).toNat = c.toNat ∧ 48 ≤ c.toNat := by
  have hrange : 48 ≤ c.toNat ∧ c.toNat ≤ 57 := by
    simpa [Char.isDigit, UInt32.le_iff_toNat_le] using h
  have hval : (ch c).toNat = c.toNat := by
    have hmod : (ch c).toNat = c.toNat % 256 := rfl
    omega
  refine ⟨?_, hval, hrange.1⟩
  rw [IsDigit, UInt8.le_iff_toNat_le, UInt8.le_iff_toNat_le, hval]
  exact hrange

theorem decimal_ofDigitChars {l : List Char} (h : ∀ c ∈ l, c.isDigit = true) (n : Nat) :
    decimal n (l.map ch) = Nat.ofDigitChars 10 l n := by
  induction l generalizing n with
  | nil => rfl
  | cons c l ih =>
    obtain ⟨hc, hl⟩ := forall_mem_cons.mp h
    obtain ⟨-, hval, hlo⟩ := isDigit_ch hc
    have hstep : (n : Int) * 10 + ((ch c).toNat - 48) = (10 * n + (c.toNat - 48) : Nat) := by omega
    rw [map_cons, decimal, foldl_cons, hstep]
    exact ih hl _

theorem denoted_numeral (v : Int) : denoted ((numeral .dec v).map ch) = some v := by
  have hall : ∀ c ∈ Nat.toDigits 10 v.natAbs, c.isDigit = true :=
    fun c => Nat.isDigit_of_mem_toDigits (by decide) (by decide)
  have hdigit : ∀ c ∈ (Nat.toDigits 10 v.natAbs).map ch, IsDigit c := by
    simpa using fun c hc => (isDigit_ch (hall c hc)).1
  have hne : (Nat.toDigits 10 v.natAbs).map ch ≠ [] := by simp [Nat.toDigits_ne_nil]
  have hdecimal : decimal 0 _ = _ := decimal_ofDigitChars hall 0
  rw [Nat.ofDigitChars_toDigits (by decide) (by decide)] at hdecimal
  -- the sign is where it belongs, since no digit is a minus
  have hsigned : signed ((numeral .dec v).map ch) =
      (if v < 0 then -1 else 1, (Nat.toDigits 10 v.natAbs).map ch) := by
    by_cases hneg : v < 0
    · simp [signed, numeral, hneg, Base.radix]
    · have hhead : ((Nat.toDigits 10 v.natAbs).map ch).head? ≠ some (ch '-') := fun hhead =>
        absurd (hdigit _ (mem_of_head? hhead)) (by decide)
      simpa [signed, numeral, hneg, Base.radix] using hhead
  rw [denoted, hsigned, if_pos ⟨hne, hdigit⟩]
  dsimp only
  rw [hdecimal]
  refine congrArg some ?_
  split <;> omega

/-- Both write the numeral of the value, the kernel in lower and the user library in upper case,
into at most 20 bytes, and `parse_int` reads back the `int` that it was. -/
theorem printint_canonical (xx : BitVec 64) (base : Base) (sign : Bool) (x : BitVec 32) :
    (kernelPrintint xx base sign).reverse = numeral base (shown xx sign) ∧
      (userPrintint xx base sign).reverse = (numeral base (shown xx sign)).map Char.toUpper ∧
      (kernelPrintint xx base sign).length ≤ 20 ∧ (userPrintint xx base sign).length ≤ 20 ∧
      parseInt ((kernelPrintint (x.signExtend 64) .dec true).reverse.map ch) = some x.toInt ∧
      parseInt ((userPrintint (x.signExtend 64) .dec true).reverse.map ch) = some x.toInt := by
  have hlower : ∀ {base : Base}, ∀ i < base.radix,
      "0123456789abcdef".toList.getD i '0' = id i.digitChar := by
    intro base
    cases base <;> decide
  have hupper : ∀ {base : Base}, ∀ i < base.radix,
      "0123456789ABCDEF".toList.getD i '0' = i.digitChar.toUpper := by
    intro base
    cases base <;> decide
  have hkernel : (kernelPrintint xx base sign).reverse = _ := printint_reverse xx sign rfl hlower
  have huser : (userPrintint xx base sign).reverse = _ := printint_reverse xx sign rfl hupper
  have hlen := numeral_length xx base sign
  have hparse : ∀ digits, (∀ i < 10, digits.toList.getD i '0' = id i.digitChar) →
      parseInt ((printint digits (x.signExtend 64) .dec true).reverse.map ch) = some x.toInt := by
    intro digits hdigits
    have hvalue : shown (x.signExtend 64) true = x.toInt :=
      BitVec.toInt_signExtend_of_le (by decide)
    have hout : (printint digits (x.signExtend 64) .dec true).reverse = _ :=
      printint_reverse _ _ rfl hdigits
    rw [hout, map_id, hvalue, parseInt_eq, denoted_numeral]
    exact congrArg some (wrap_eq_iff.mpr ⟨x.le_toInt, x.toInt_lt⟩)
  rw [map_id] at hkernel
  refine ⟨hkernel, huser, ?_, ?_, hparse _ (by decide), hparse _ (by decide)⟩
  · rw [← length_reverse, hkernel]
    exact hlen
  · rw [← length_reverse, huser, length_map]
    exact hlen

end EAFITos
