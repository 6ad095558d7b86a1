import Osmium.Memlayout
import Osmium.Lib.Chain

namespace Osmium
open Lib

/-- Physical memory together with the page allocator's `KMEM`: the head of the
list threaded through the free pages, and their number. -/
structure Phys where
  mem : Mem
  head : Nat
  freePages : Nat

namespace Kalloc

/-- Allocate one zeroed page. The link is read before the page is cleared. -/
def alloc (P : Phys) : Except Panic (Option Nat × Phys) :=
  let node := P.head
  if node = 0 then .ok (none, P)
  else if P.freePages = 0 then .error .overflow
  else .ok (some node,
    { mem := fill P.mem node pageSize 0
      head := load64 P.mem node
      freePages := P.freePages - 1 })

/-- Return a page: poison it, then thread it onto the list. Of the layout the
allocator needs only `alloc_start()`, where its range begins. -/
def free (allocStart : Nat) (P : Phys) (pa : Nat) : Except Panic Phys :=
  if pa % pageSize ≠ 0 then .error .unalignedPage
  else if ¬(allocStart ≤ pa ∧ pa + pageSize ≤ physTop) then .error .pageOutsideRange
  else .ok
    { mem := store64 (fill P.mem pa pageSize 0x5a) pa P.head
      head := pa
      freePages := P.freePages + 1 }

def nextMultipleOf (x n : Nat) : Nat := (x + (n - 1)) / n * n

/-- The reserved interval rounded outwards to pages; `None` reserves nothing. -/
def reservedRange : Option (Nat × Nat) → Except Panic (Nat × Nat)
  | none => .ok (0, 0)
  | some (s, e) =>
    if nextMultipleOf e pageSize < 2 ^ 64 then
      .ok (s / pageSize * pageSize, nextMultipleOf e pageSize)
    else .error .overflow

/-- The seeding loop of `init`: every whole page below `PHYS_TOP` that misses
the reserved range goes to the free list. -/
def seedFrom (allocStart : Nat) (res : Nat × Nat) (page : Nat) (P : Phys) : Except Panic Phys :=
  if page + pageSize ≤ physTop then do
    let P ← (if res.2 ≤ page ∨ page + pageSize ≤ res.1 then free allocStart P page else .ok P)
    seedFrom allocStart res (page + pageSize) P
  else .ok P
termination_by physTop - page
decreasing_by
  rename_i h _
  unfold pageSize physTop dramBase at *
  omega

def init (allocStart : Nat) (reserved : Option (Nat × Nat)) (m : Mem) : Except Panic Phys := do
  let res ← reservedRange reserved
  seedFrom allocStart res (nextMultipleOf allocStart pageSize) { mem := m, head := 0, freePages := 0 }

end Kalloc
end Osmium
