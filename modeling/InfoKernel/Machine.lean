import Mathlib.Algebra.Group.Int.Defs
import Mathlib.Algebra.Group.Nat.Defs
import Mathlib.Tactic.Common

/-!
# Machine words and addresses

The unsigned integers of the source are natural numbers.  Where a value can leave the
range of its type, the operation that computes it is reduced, by `u16`, `u32` or `u64`, and
a difference is `sub32` or `sub64`.

An address is a natural number below `2 ^ 64`, and `0` is the null pointer.  The kernel
sees all physical memory in a window that starts at `identityBase`: `vir2Phy` and
`phy2Vir` lead out of the window and into it, with the wrap-around of 64-bit addresses.
-/

namespace InfoKernel

/-- `TIMER_FREQUENCY` -/
def timerFrequency : Nat := 100

/-- `TIMER_PERIOD` -/
def timerPeriod : Nat := 1000 / timerFrequency

/-- `std::uint16_t` arithmetic. -/
def u16 (n : Nat) : Nat := n % 2 ^ 16

/-- `std::uint32_t` arithmetic. -/
def u32 (n : Nat) : Nat := n % 2 ^ 32

/-- `std::uint64_t` arithmetic. -/
def u64 (n : Nat) : Nat := n % 2 ^ 64

/-- Subtraction of `std::uint32_t`. -/
def sub32 (a b : Nat) : Nat := u32 (2 ^ 32 - u32 b + a)

/-- Subtraction of `std::uint64_t`. -/
def sub64 (a b : Nat) : Nat := u64 (2 ^ 64 - u64 b + a)

namespace Mm

/-- `IDENTITY_BASE` -/
def identityBase : Nat := 0xfffff00000000000

/-- `mm::Vir2Phy` -/
def vir2Phy (virt : Nat) : Nat := sub64 virt identityBase

/-- `mm::Phy2Vir` -/
def phy2Vir (phy : Nat) : Nat := u64 (identityBase + phy)

end Mm

end InfoKernel
