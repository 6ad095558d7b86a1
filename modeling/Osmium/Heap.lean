import Osmium.Memlayout

namespace Osmium
open Lib

/-- The kernel heap's `HEAP`. The blocks' own headers are in memory. -/
structure Heap where
  head : Nat
  freeBytes : Nat

/-- A request as `core::alloc::Layout` admits it. -/
structure Request where
  size : Nat
  align : Nat
  pow : ∃ k, align = 2 ^ k
  fits : size + (align - 1) < 2 ^ 63

namespace Heap

/-- What an owner was given: the payload's address and the size asked for. -/
structure Live where
  ptr : Nat
  size : Nat

abbrev align : Nat := 16
abbrev minBlock : Nat := 32

/-- Size of a free block's header, and of the header before a payload. -/
abbrev header : Nat := 16

/-- A sum that does not fit a word stops the kernel. -/
def checked (x : Nat) : Except Panic Nat := if x < 2 ^ 64 then .ok x else .error .overflow

def alignUp (x align : Nat) : Except Panic Nat := do
  let y ← checked (x + align)
  .ok ((y - 1) &&& (2 ^ 64 - 1 - (align - 1)))

/-- Seed the heap with its whole region as one free block. -/
def init (L : Layout) (m : Mem) (h : Heap) : Except Panic (Mem × Heap) :=
  let start := L.heapStart
  if ¬(start % align = 0 ∧ heapSize % align = 0) then .error .misaligned
  else if h.head ≠ 0 then .error .heapTwice
  else .ok (store64 (store64 m start heapSize) (start + 8) 0,
    { head := start, freeBytes := heapSize })

/-- A free block that can hold header and payload, and where they go. -/
structure Fit where
  prev : Nat
  cur : Nat
  blockEnd : Nat
  userStart : Nat
  userEnd : Nat

/-- A list over the region has at most this many blocks. -/
abbrev listFuel : Nat := heapSize / minBlock + 1

/-- The first block of the list, from `cur` on, that is large enough. -/
def firstFit (m : Mem) (need al : Nat) : Nat → Nat → Nat → Except Panic (Option Fit)
  | 0, _, _ => .error .heapListLost
  | fuel + 1, prev, cur =>
    if cur = 0 then .ok none
    else do
      let blockEnd ← checked (cur + load64 m cur)
      let userStart ← alignUp (cur + header) al
      let userEnd ← checked (userStart + need)
      if userEnd ≤ blockEnd then .ok (some { prev, cur, blockEnd, userStart, userEnd })
      else firstFit m need al fuel cur (load64 m (cur + 8))

/-- Write a free block's header. -/
def setBlock (m : Mem) (b size next : Nat) : Mem := store64 (store64 m b size) (b + 8) next

/-- Point the predecessor, or the head, at `b`. -/
def link (m : Mem) (h : Heap) (prev b : Nat) : Mem × Heap :=
  if prev = 0 then (m, { h with head := b }) else (store64 m (prev + 8) b, h)

/-- Take the payload out of the block found. A remainder in front of it or
behind it stays on the list if it is large enough to be a block. -/
def carve (m : Mem) (h : Heap) (f : Fit) : Except Panic (Nat × Mem × Heap) :=
  let next := load64 m (f.cur + 8)
  let frontGap := f.userStart - header - f.cur
  let keepFront := minBlock ≤ frontGap
  let allocStart := if keepFront then f.cur + frontGap else f.cur
  let backGap := f.blockEnd - f.userEnd
  let keepBack := minBlock ≤ backGap
  let allocEnd := if keepBack then f.userEnd else f.blockEnd
  let m := if keepBack then setBlock m allocEnd (f.blockEnd - allocEnd) next else m
  let replacement := if keepBack then allocEnd else next
  let m := if keepFront then setBlock m f.cur frontGap replacement else m
  let replacement := if keepFront then f.cur else replacement
  let (m, h) := link m h f.prev replacement
  if h.freeBytes < allocEnd - allocStart then .error .overflow
  else .ok (f.userStart,
    store64 (store64 m (f.userStart - header) allocStart) (f.userStart - header + 8)
      (allocEnd - allocStart),
    { h with freeBytes := h.freeBytes - (allocEnd - allocStart) })

def allocInner (m : Mem) (h : Heap) (r : Request) : Except Panic (Option Nat × Mem × Heap) := do
  let need ← alignUp (max r.size 1) align
  match ← firstFit m need (max r.align align) listFuel 0 h.head with
  | none => .ok (none, m, h)
  | some f =>
    let (p, m, h) ← carve m h f
    .ok (some p, m, h)

/-- The address-ordered place of a block: its predecessor and its successor. -/
def position (m : Mem) (start : Nat) : Nat → Nat → Nat → Except Panic (Nat × Nat)
  | 0, _, _ => .error .heapListLost
  | fuel + 1, prev, cur =>
    if cur ≠ 0 ∧ cur < start then position m start fuel cur (load64 m (cur + 8))
    else .ok (prev, cur)

/-- Grow block `b` by the block `c` behind it. -/
def absorb (m : Mem) (b c : Nat) : Except Panic Mem := do
  let size ← checked (load64 m b + load64 m c)
  let m := store64 m b size
  .ok (store64 m (b + 8) (load64 m (c + 8)))

/-- Merge a freed block into a free one right in front of it, or link it in. -/
def mergeBehind (m : Mem) (h : Heap) (prev start : Nat) : Except Panic (Mem × Heap) := do
  let prevEnd ← (if prev ≠ 0 then checked (prev + load64 m prev) else .ok 0)
  if prev ≠ 0 ∧ prevEnd = start then do
    let m ← absorb m prev start
    .ok (m, h)
  else .ok (link m h prev start)

/-- Give a payload's block back and merge it with both neighbours. -/
def deallocInner (m : Mem) (h : Heap) (userPtr : Nat) : Except Panic (Mem × Heap) := do
  let start := load64 m (userPtr - header)
  let size := load64 m (userPtr - header + 8)
  let stop ← checked (start + size)
  let freeBytes ← checked (h.freeBytes + size)
  let h := { h with freeBytes }
  let (prev, cur) ← position m start listFuel 0 h.head
  let m := setBlock m start size cur
  let m ← (if cur ≠ 0 ∧ stop = cur then absorb m start cur else .ok m)
  mergeBehind m h prev start

end Heap
end Osmium
