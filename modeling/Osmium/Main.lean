import Osmium.Step

namespace Osmium
open Lib

/-- `u32::from_be` of a word that was loaded on a little-endian machine. -/
def fromBe (w : Nat) : Nat :=
  w % 256 * 2 ^ 24 + w / 2 ^ 8 % 256 * 2 ^ 16 + w / 2 ^ 16 % 256 * 2 ^ 8 + w / 2 ^ 24 % 256

def dtbMagic : Nat := 0xd00dfeed

/-- The part of memory that `kmain` keeps from the allocator: the device tree, if
the header at the pointer it was given is one. -/
def dtbReserved (m : Mem) (dtb : Nat) : Except Panic (Option (Nat × Nat)) :=
  if dramBase ≤ dtb ∧ fromBe (load m dtb 4) = dtbMagic then do
    let size := fromBe (load m (dtb + 4) 4)
    let stop ← Heap.checked (dtb + size)
    .ok (some (dtb, stop))
  else .ok none

/-- `kmain` with the firmware's arguments, up to the first `intr_on`. -/
def kmainAt (E : Env) (dtb : Nat) (m : Mem) (regs : Regs) : Except Panic (Sys T) := do
  let reserved ← dtbReserved m dtb
  kmain E reserved m regs

end Osmium
