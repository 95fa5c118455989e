/-!
# Faults

What can go wrong in the middle of a kernel function.  A modelled function
returns `Except Fault α`: `ok` with what the source returns and leaves behind, or
the fault that stops it.  A loop of the source whose length is not known in
advance takes a `fuel` argument and ends in `outOfFuel` when it is used up, so
that a statement about a returned value is one about a loop that has ended.
-/

namespace InfoKernel

/-- What can go wrong in the middle of a kernel function. -/
inductive Fault where
  /-- a null pointer is read or written through -/
  | nullDeref
  /-- an array or a buffer is indexed outside its bounds -/
  | outOfBounds
  /-- a bitmap or a block of an inode table is indexed behind the bytes that were read -/
  | outOfBlock
  /-- an integer is divided by zero -/
  | divByZero
  /-- `tty::Panic` is called -/
  | panic
  /-- a loop is still running when the fuel of the model is used up -/
  | outOfFuel
  deriving DecidableEq, Repr

end InfoKernel
