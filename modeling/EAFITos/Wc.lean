/-
`user/wc.c`, which counts lines, words and bytes buffer by buffer.
-/
import Mathlib.Data.List.Basic

namespace EAFITos.Wc

open List

structure Counts where
  l : Nat
  w : Nat
  c : Nat
  inword : Bool

/-- `strchr(" \r\t\n\v", b)` -/
def isSpace (b : UInt8) : Bool := b ∈ [32, 13, 9, 10, 11]

def count (s : Counts) (b : UInt8) : Counts :=
  let s := { s with c := s.c + 1, l := if b = 10 then s.l + 1 else s.l }
  if isSpace b then { s with inword := false }
  else if s.inword then s else { s with w := s.w + 1, inword := true }

def words (pieces : List (List UInt8)) : Nat := (pieces.filter (· ≠ [])).length

end EAFITos.Wc
