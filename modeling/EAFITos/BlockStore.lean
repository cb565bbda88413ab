/-
What the buffer cache and the log are for: a store of blocks whose writes take effect at
once and survive a crash from the next commit on.
-/
import EAFITos.Bio

namespace EAFITos

/-- What happens to the store. -/
inductive BlockOp where
  | stay
  | write (b : Nat) (data : Block)
  | commit
  | crash

/-- The contents of the blocks, and the contents that a crash goes back to. -/
@[ext]
structure BlockStore where
  current : Nat → Block
  durable : Nat → Block

/-- A commit makes all contents durable at once. -/
def BlockStore.apply (a : BlockStore) : BlockOp → BlockStore
  | .stay => a
  | .write b data => { a with current := Function.update a.current b data }
  | .commit => { a with durable := a.current }
  | .crash => { a with current := a.durable }

namespace BlockStore

variable {a : BlockStore} {b x : Nat} {data : Block}

theorem write_self : (a.apply (.write b data)).current b = data := Function.update_self ..

theorem write_of_ne (h : x ≠ b) : (a.apply (.write b data)).current x = a.current x :=
  Function.update_of_ne h ..

end BlockStore

end EAFITos
