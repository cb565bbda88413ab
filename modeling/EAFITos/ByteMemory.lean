/-
Byte-addressed memory with little-endian words: loads, stores, block fills and
block copies, and what each of them leaves unchanged.
-/
import Mathlib.Data.Nat.Basic
import Mathlib.Tactic.Ring

/-- A memory gives every address a byte. -/
abbrev ByteMem := Nat → UInt8

namespace ByteMem

/-- The little-endian word of `width` bytes at `a`. -/
def loadLE (m : ByteMem) (a : Nat) : Nat → Nat
  | 0 => 0
  | width + 1 => (m a).toNat + 256 * loadLE m (a + 1) width

/-- Store the low `width` bytes of `v` at `a`, least significant first. -/
def storeLE (m : ByteMem) (a width v : Nat) : ByteMem := fun x =>
  if a ≤ x ∧ x < a + width then UInt8.ofNat (v / 256 ^ (x - a)) else m x

/-- Fill `n` bytes at `a` with the byte `c`. -/
def fill (m : ByteMem) (a : Nat) (c : UInt8) (n : Nat) : ByteMem := fun x =>
  if a ≤ x ∧ x < a + n then c else m x

/-- Copy `n` bytes from `src` to `dst`. -/
def copy (m : ByteMem) (dst src n : Nat) : ByteMem := fun x =>
  if dst ≤ x ∧ x < dst + n then m (src + (x - dst)) else m x

/-- Store a list of bytes at `a`. -/
def storeBytes (m : ByteMem) (a : Nat) (bytes : List UInt8) : ByteMem := fun x =>
  if a ≤ x ∧ x < a + bytes.length then bytes.getD (x - a) 0 else m x

/-- The `n` bytes at `a`. -/
def loadBytes (m : ByteMem) (a n : Nat) : List UInt8 :=
  (List.range n).map fun i => m (a + i)

/-- Two memories hold the same bytes in `[a, a + n)`. -/
def AgreeOn (m m' : ByteMem) (a n : Nat) : Prop :=
  ∀ x, a ≤ x → x < a + n → m x = m' x

theorem AgreeOn.refl (m : ByteMem) (a n : Nat) : AgreeOn m m a n := fun _ _ _ => rfl

theorem AgreeOn.trans {m m' m'' : ByteMem} {a n : Nat} (h : AgreeOn m m' a n)
    (h' : AgreeOn m' m'' a n) : AgreeOn m m'' a n :=
  fun x hlo hhi => (h x hlo hhi).trans (h' x hlo hhi)

theorem AgreeOn.sub {m m' : ByteMem} {a n b k : Nat} (h : AgreeOn m m' a n)
    (hlo : a ≤ b) (hhi : b + k ≤ a + n) : AgreeOn m m' b k :=
  fun x hb hk => h x (Nat.le_trans hlo hb) (Nat.lt_of_lt_of_le hk hhi)

theorem loadLE_congr {m m' : ByteMem} {a width : Nat}
    (h : AgreeOn m m' a width) : m.loadLE a width = m'.loadLE a width := by
  induction width generalizing a with
  | zero => rfl
  | succ width ih =>
    have hhead : m a = m' a := h a le_rfl (by omega)
    have htail : AgreeOn m m' (a + 1) width := h.sub (by omega) (by omega)
    simp only [loadLE, hhead, ih htail]

theorem loadLE_lt (m : ByteMem) (a width : Nat) :
    m.loadLE a width < 256 ^ width := by
  induction width generalizing a with
  | zero => simp [loadLE]
  | succ width ih =>
    have hbyte : (m a).toNat < 256 := (m a).toNat_lt
    have hrest := ih (a + 1)
    simp only [loadLE, Nat.pow_succ]
    omega

theorem storeLE_agreeOn (m : ByteMem) {a width v b n : Nat}
    (h : b + n ≤ a ∨ a + width ≤ b) : AgreeOn (m.storeLE a width v) m b n := by
  intro x hlo hhi
  have hout : ¬ (a ≤ x ∧ x < a + width) := by omega
  simp only [storeLE, hout, if_false]

theorem fill_agreeOn (m : ByteMem) {a : Nat} {c : UInt8} {width b n : Nat}
    (h : b + n ≤ a ∨ a + width ≤ b) : AgreeOn (m.fill a c width) m b n := by
  intro x hlo hhi
  have hout : ¬ (a ≤ x ∧ x < a + width) := by omega
  simp only [fill, hout, if_false]

theorem copy_agreeOn (m : ByteMem) {dst src width b n : Nat}
    (h : b + n ≤ dst ∨ dst + width ≤ b) : AgreeOn (m.copy dst src width) m b n := by
  intro x hlo hhi
  have hout : ¬ (dst ≤ x ∧ x < dst + width) := by omega
  simp only [copy, hout, if_false]

theorem storeBytes_agreeOn (m : ByteMem) {a b n : Nat} {bytes : List UInt8}
    (h : b + n ≤ a ∨ a + bytes.length ≤ b) :
    AgreeOn (m.storeBytes a bytes) m b n := by
  intro x hlo hhi
  have hout : ¬ (a ≤ x ∧ x < a + bytes.length) := by omega
  simp only [storeBytes, hout, if_false]

theorem fill_apply (m : ByteMem) {a : Nat} {c : UInt8} {n x : Nat}
    (hlo : a ≤ x) (hhi : x < a + n) : m.fill a c n x = c := by
  simp [fill, hlo, hhi]

theorem copy_apply (m : ByteMem) {dst src n x : Nat} (hlo : dst ≤ x) (hhi : x < dst + n) :
    m.copy dst src n x = m (src + (x - dst)) := by
  simp [copy, hlo, hhi]

/-- Reading the upper part of a stored word, by induction on what is left to
read. -/
theorem loadLE_storeLE_tail (m : ByteMem) (a width v k : Nat) (hk : k ≤ width) :
    (m.storeLE a width v).loadLE (a + (width - k)) k = v / 256 ^ (width - k) % 256 ^ k := by
  induction k with
  | zero => simp [loadLE, Nat.mod_one]
  | succ k ih =>
    have hnext : a + (width - (k + 1)) + 1 = a + (width - k) := by omega
    have hin : a ≤ a + (width - (k + 1)) ∧ a + (width - (k + 1)) < a + width := by omega
    have hoff : a + (width - (k + 1)) - a = width - (k + 1) := by omega
    have hpow : 256 ^ (width - k) = 256 ^ (width - (k + 1)) * 256 := by
      rw [← Nat.pow_succ]
      congr 1
      omega
    have hbyte : (m.storeLE a width v (a + (width - (k + 1)))).toNat =
        v / 256 ^ (width - (k + 1)) % 256 := by
      simp only [storeLE, hin, and_self, if_true, hoff]
      simp
    rw [loadLE, hnext, ih (by omega), hbyte, hpow, ← Nat.div_div_eq_div_mul,
      Nat.pow_succ, Nat.mul_comm (256 ^ k) 256, Nat.mod_mul]

theorem loadLE_storeLE_same (m : ByteMem) (a width v : Nat) :
    (m.storeLE a width v).loadLE a width = v % 256 ^ width := by
  have h := loadLE_storeLE_tail m a width v width le_rfl
  simpa using h

theorem loadLE_storeLE_of_lt (m : ByteMem) {a width v : Nat}
    (hv : v < 256 ^ width) : (m.storeLE a width v).loadLE a width = v := by
  rw [loadLE_storeLE_same, Nat.mod_eq_of_lt hv]

theorem loadLE_storeLE_other (m : ByteMem) {a width v b k : Nat} (h : b + k ≤ a ∨ a + width ≤ b) :
    (m.storeLE a width v).loadLE b k = m.loadLE b k := loadLE_congr (storeLE_agreeOn m h)

theorem loadLE_fill_zero (m : ByteMem) {a n b k : Nat}
    (hlo : a ≤ b) (hhi : b + k ≤ a + n) : (m.fill a 0 n).loadLE b k = 0 := by
  induction k generalizing b with
  | zero => rfl
  | succ k ih =>
    have hbyte : m.fill a 0 n b = 0 := fill_apply m hlo (by omega)
    rw [loadLE, hbyte, ih (by omega) (by omega)]
    rfl

theorem storeBytes_apply (m : ByteMem) (a : Nat) (bytes : List UInt8) (x : Nat) :
    m.storeBytes a bytes x =
      if a ≤ x ∧ x < a + bytes.length then bytes.getD (x - a) 0 else m x := rfl

theorem length_loadBytes (m : ByteMem) (a n : Nat) :
    (m.loadBytes a n).length = n := by
  simp [loadBytes]

theorem getD_loadBytes (m : ByteMem) {a n i : Nat} (hi : i < n) :
    (m.loadBytes a n).getD i 0 = m (a + i) := by
  simp [loadBytes, hi]

attribute [irreducible] loadLE storeLE fill copy storeBytes

end ByteMem
