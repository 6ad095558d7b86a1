import Osmium.Kalloc
import Osmium.Lib.Loops

namespace Osmium.Vm
open Lib

abbrev pteV : Nat := 1
abbrev pteR : Nat := 2
abbrev pteW : Nat := 4
abbrev pteX : Nat := 8
abbrev pteU : Nat := 16
abbrev pteA : Nat := 64
abbrev pteD : Nat := 128

abbrev permMask : Nat := pteR ||| pteW ||| pteX ||| pteU

/-- One past the lower half of the Sv39 address space. -/
abbrev vaMax : Nat := 1 <<< 38

def paToPte (pa : Nat) : Nat := (pa >>> 12) <<< 10

def pteToPa (pte : Nat) : Nat := ((pte >>> 10) <<< 12) % 2 ^ 64

def vpn (va level : Nat) : Nat := (va >>> (12 + 9 * level)) &&& 0x1ff

/-- The entry's `V` bit. -/
def Valid (pte : Nat) : Prop := pte &&& pteV ≠ 0

instance (pte : Nat) : Decidable (Valid pte) := inferInstanceAs (Decidable (_ ≠ _))

/-- The levels of `walk` above the leaf table, from the given one down to 1. A
missing table is allocated when `alloc` is set; the walk gives up otherwise. -/
def walkFrom (va : Nat) (alloc : Bool) : Nat → Phys → Nat → Except Panic (Option Nat × Phys)
  | 0, P, table => .ok (some (table + 8 * vpn va 0), P)
  | level + 1, P, table =>
    let ptePtr := table + 8 * vpn va (level + 1)
    let pte := load64 P.mem ptePtr
    if Valid pte then walkFrom va alloc level P (pteToPa pte)
    else if !alloc then .ok (none, P)
    else do
      match ← Kalloc.alloc P with
      | (none, P) => .ok (none, P)
      | (some page, P) =>
        -- zeroed by the allocator, so all entries of the new table are invalid
        walkFrom va alloc level
          { P with mem := store64 P.mem ptePtr (paToPte page ||| pteV) } page

/-- The address of the level-0 entry for `va`. -/
def walk (P : Phys) (root va : Nat) (alloc : Bool) : Except Panic (Option Nat × Phys) :=
  if va < vaMax then walkFrom va alloc 2 P root else .error .beyondSv39

/-- One iteration of `map_pages`. A and D are preset, so that hardware which
traps instead of updating them never faults on them. -/
def mapPage (P : Phys) (root va pa perm : Nat) : Except Panic Phys := do
  match ← walk P root va true with
  | (none, _) => .error .outOfPages
  | (some ptePtr, P) =>
    if Valid (load64 P.mem ptePtr) then .error .remap
    else
      let pte := paToPte pa ||| perm ||| pteA ||| pteD ||| pteV
      .ok { P with mem := store64 P.mem ptePtr pte }

/-- Map `[va, va + size)` to `[pa, pa + size)`. -/
def mapPages (P : Phys) (root va pa size perm : Nat) : Except Panic Phys :=
  if ¬(va % pageSize = 0 ∧ pa % pageSize = 0 ∧ size % pageSize = 0) then .error .misaligned
  else if size = 0 then .error .emptyMapping
  else if perm &&& permMask = 0 then .error .noPermissions
  else (List.range (size / pageSize)).foldlM
    (fun P i => mapPage P root (va + i * pageSize) (pa + i * pageSize) perm) P

/-- Software walk: physical address and leaf entry. -/
def translate (P : Phys) (root va : Nat) : Except Panic (Option (Nat × Nat)) := do
  match ← walk P root va false with
  | (none, _) => .ok none
  | (some ptePtr, P) =>
    let pte := load64 P.mem ptePtr
    if Valid pte then .ok (some (pteToPa pte ||| (va % pageSize), pte)) else .ok none

/-- `kalloc::alloc().expect(..)`. -/
def allocPage (P : Phys) : Except Panic (Nat × Phys) := do
  match ← Kalloc.alloc P with
  | (none, _) => .error .outOfPages
  | (some page, P) => .ok (page, P)

/-- The kernel's own table: identity mappings with least privilege. -/
def kvmmake (L : Layout) (P : Phys) : Except Panic (Nat × Phys) := do
  let (root, P) ← allocPage P
  let P ← mapPages P root uart0 uart0 pageSize (pteR ||| pteW)
  let P ← mapPages P root plic plic plicSize (pteR ||| pteW)
  let P ← mapPages P root L.textStart L.textStart (L.textEnd - L.textStart) (pteR ||| pteX)
  let P ← (if L.userStart < L.userEnd then
      mapPages P root L.userStart L.userStart (L.userEnd - L.userStart) pteR
    else .ok P)
  let P ← mapPages P root L.rodataStart L.rodataStart (L.rodataEnd - L.rodataStart) pteR
  let P ← mapPages P root L.dataStart L.dataStart (L.kernelEnd - L.dataStart) (pteR ||| pteW)
  let P ← mapPages P root L.kernelEnd L.kernelEnd (physTop - L.kernelEnd) (pteR ||| pteW)
  .ok (root, P)

abbrev userText : Nat := 0x40000000
abbrev userStackTop : Nat := 0x41000000
abbrev userHeapBase : Nat := 0x50000000
abbrev userHeapMax : Nat := 0x60000000

/-- Top-level index reserved for user mappings. -/
abbrev userL2Index : Nat := userText >>> 30

/-- A fresh process root that shares the kernel's top-level entries. -/
def makeUserTable (P : Phys) (kroot : Nat) : Except Panic (Nat × Phys) := do
  let (root, P) ← allocPage P
  let mem := (List.range 512).foldl
    (fun m i => store64 m (root + 8 * i) (load64 m (kroot + 8 * i))) P.mem
  if Valid (load64 mem (kroot + 8 * userL2Index)) then .error .userSlotTaken
  else .ok (root, { P with mem := mem })

/-- Copy one mapped page of the parent into a new frame of the child. -/
def clonePage (P : Phys) (child l0 i j : Nat) : Except Panic Phys := do
  let e0 := load64 P.mem (l0 + 8 * j)
  if Valid e0 then
    let va := (userL2Index <<< 30) ||| (i <<< 21) ||| (j <<< 12)
    let (dst, P) ← allocPage P
    mapPages { P with mem := copy P.mem (pteToPa e0) dst pageSize } child va dst pageSize
      (e0 &&& permMask)
  else .ok P

def cloneTable (P : Phys) (child l1 i : Nat) : Except Panic Phys :=
  let e1 := load64 P.mem (l1 + 8 * i)
  if Valid e1 then
    (List.range 512).foldlM (fun P j => clonePage P child (pteToPa e1) i j) P
  else .ok P

/-- Every mapped page of the private subtree goes to a new frame at the same
address with the same permissions. -/
def cloneUserTable (P : Phys) (kroot parent : Nat) : Except Panic (Nat × Phys) := do
  let (child, P) ← makeUserTable P kroot
  let e2 := load64 P.mem (parent + 8 * userL2Index)
  let P ← (if Valid e2 then
      (List.range 512).foldlM (fun P i => cloneTable P child (pteToPa e2) i) P
    else .ok P)
  .ok (child, P)

/-- The leaf frames under a level-0 table, then the table itself. -/
def freeLeafTable (L : Layout) (P : Phys) (l0 : Nat) : Except Panic Phys := do
  let P ← (List.range 512).foldlM (fun P j =>
    let e0 := load64 P.mem (l0 + 8 * j)
    if Valid e0 then Kalloc.free L.allocStart P (pteToPa e0) else .ok P) P
  Kalloc.free L.allocStart P l0

/-- The level-0 tables under a level-1 table, then the table itself. -/
def freeMidTable (L : Layout) (P : Phys) (l1 : Nat) : Except Panic Phys := do
  let P ← (List.range 512).foldlM (fun P i =>
    let e1 := load64 P.mem (l1 + 8 * i)
    if Valid e1 then freeLeafTable L P (pteToPa e1) else .ok P) P
  Kalloc.free L.allocStart P l1

/-- The private subtree of a process table, then its root. The shared kernel
subtrees are left alone. -/
def freeUserTable (L : Layout) (P : Phys) (root : Nat) : Except Panic Phys := do
  let e2 := load64 P.mem (root + 8 * userL2Index)
  let P ← (if Valid e2 then freeMidTable L P (pteToPa e2) else .ok P)
  Kalloc.free L.allocStart P root

end Osmium.Vm
