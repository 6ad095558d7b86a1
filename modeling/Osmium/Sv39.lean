import Osmium.Vm

namespace Osmium.Sv39
open Lib Vm

inductive Mode where
  | user | supervisor
  deriving DecidableEq, Repr

inductive Access where
  | fetch | load | store
  deriving DecidableEq, Repr

/-- An address with bits 63 to 39 equal to bit 38. -/
def canonical (va : Nat) : Bool := va < 2 ^ 38 ∨ 2 ^ 64 - 2 ^ 38 ≤ va ∧ va < 2 ^ 64

/-- An entry that maps memory rather than pointing at a table. -/
def isLeaf (pte : Nat) : Bool := pte &&& (pteR ||| pteX) ≠ 0

/-- Entries the privileged architecture reserves fault: writable but not
readable, or any bit above the page number. -/
def reserved (pte : Nat) : Bool := (pte &&& pteR = 0 ∧ pte &&& pteW ≠ 0) ∨ 2 ^ 54 ≤ pte

/-- The hardware's walk from a table of the given level: the leaf and its level. -/
def walk (m : Mem) (va : Nat) : Nat → Nat → Option (Nat × Nat)
  | level, table =>
    let pte := load64 m (table + 8 * vpn va level)
    if ¬Valid pte ∨ reserved pte then none
    else if isLeaf pte then some (pte, level)
    else match level with
      | 0 => none
      | level + 1 => walk m va level (pteToPa pte)

/-- May this access go through this leaf? S-mode reaches a user page for data
only while `SUM` is set. -/
def permits (pte : Nat) (acc : Access) (mode : Mode) (sum : Bool) : Bool :=
  let user := decide (pte &&& pteU ≠ 0)
  let byMode := match mode with
    | .user => user
    | .supervisor => !user || (sum && acc != .fetch)
  let byKind := match acc with
    | .fetch => decide (pte &&& pteX ≠ 0)
    | .load => decide (pte &&& pteR ≠ 0)
    | .store => decide (pte &&& pteW ≠ 0) && decide (pte &&& pteD ≠ 0)
  byMode && byKind && decide (pte &&& pteA ≠ 0)

/-- The physical address an access reaches, or `none` for a page fault. -/
def access (m : Mem) (root va : Nat) (acc : Access) (mode : Mode) (sum : Bool) : Option Nat :=
  if canonical va then
    match walk m va 2 root with
    | none => none
    | some (pte, level) =>
      let span := 2 ^ (12 + 9 * level)
      if permits pte acc mode sum ∧ pteToPa pte % span = 0 then some (pteToPa pte + va % span)
      else none
  else none

end Osmium.Sv39
