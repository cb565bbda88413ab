/-
Directory entries of `kernel/fs.h`, and the string functions of `kernel/string.c` that
names go through: a name of `DIRSIZ` bytes is stored with no terminator.
-/
import EAFITos.FsLayout

namespace EAFITos

def DIRSIZ : Nat := 14

/-- `sizeof(struct dirent)`. -/
def DIRENT : Nat := 16

/-- `strncpy` of the string `t`: the bytes that it stores. -/
def strncpy : List UInt8 → Nat → List UInt8
  | _, 0 => []
  | [], n + 1 => List.replicate (n + 1) 0
  | c :: t, n + 1 => if c = 0 then List.replicate (n + 1) 0 else c :: strncpy t n

/-- The bytes of a `struct dirent`. -/
def direntBytes (inum : Nat) (name : List UInt8) : List UInt8 :=
  leBytes 2 inum ++ strncpy name DIRSIZ

theorem length_strncpy (t : List UInt8) (n : Nat) : (strncpy t n).length = n := by
  induction n generalizing t with
  | zero => cases t <;> rfl
  | succ n ih =>
    cases t with
    | nil => exact List.length_replicate
    | cons c t =>
      rw [strncpy]
      split
      · exact List.length_replicate
      · rw [List.length_cons, ih]

theorem length_direntBytes (inum : Nat) (name : List UInt8) :
    (direntBytes inum name).length = DIRENT := by
  rw [direntBytes, List.length_append, length_strncpy, leBytes, List.length_map,
    List.length_range]
  rfl

end EAFITos
