import Kintane.Lib.Word

/-!
# The architecture, as far as the shared code sees it

Every unit above the hardware is generic over an architecture, and what it takes
from it is a handful of constants. Three matter here: the page size, which is a
power of two (the source refuses to build otherwise), the width of a pointer, and
the number of physical address bits a table entry can hold.

Physical addresses are 64 bits wide on every target, pointers are not. A number
that is a `usize` in the source is at most `A.usizeMax`, one that is a `u64` at
most `u64Max`, and every conversion between the two is explicit.
-/

namespace Kintane

/-- The constants of a target: `PAGE_SIZE`, the width of `usize`, `PHYS_ADDR_BITS`. -/
structure Arch where
  pageShift : Nat
  usizeBits : Nat
  physAddrBits : Nat
  /-- Pointers are at least 32 bits wide. -/
  bits_ge : 32 ≤ usizeBits
  /-- And at most 64, which the source asserts where it widens one. -/
  bits_le : usizeBits ≤ 64
  page_lt : pageShift < usizeBits

namespace Arch

variable (A : Arch)

def pageSize : Nat := 2 ^ A.pageShift

def usizeMax : Nat := 2 ^ A.usizeBits - 1

theorem pageSize_pos : 0 < A.pageSize := Nat.two_pow_pos _

theorem u32Max_le_usizeMax : 2 ^ 32 - 1 ≤ A.usizeMax :=
  Nat.sub_le_sub_right (Nat.pow_le_pow_right (by decide) A.bits_ge) 1

end Arch

/-- A 64-bit machine with 4 KiB pages. -/
def Arch.full : Arch where
  pageShift := 12
  usizeBits := 64
  physAddrBits := 52
  bits_ge := by decide
  bits_le := by decide
  page_lt := by decide

end Kintane
