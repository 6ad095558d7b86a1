import Mathlib.Algebra.GroupWithZero.Nat
import Mathlib.Data.List.Basic

namespace Osmium.Lib

/-- A finite list of nodes threaded through a link function and closed by the
null address. -/
inductive Chain (next : Nat → Nat) : Nat → List Nat → Prop where
  | nil : Chain next 0 []
  | cons (a : Nat) (as : List Nat) (nonnull : a ≠ 0) (tail : Chain next (next a) as) :
      Chain next a (a :: as)

theorem Chain.head_zero (h : Chain next 0 as) : as = [] := by
  cases h with
  | nil => rfl
  | cons a as hn ht => exact absurd rfl hn

theorem Chain.head_ne (h : Chain next a as) (ha : a ≠ 0) :
    ∃ bs, as = a :: bs ∧ Chain next (next a) bs := by
  cases h with
  | nil => exact absurd rfl ha
  | cons a bs hn ht => exact ⟨bs, rfl, ht⟩

/-- A head and a link function determine the nodes. -/
theorem Chain.unique (h : Chain next a as) (h' : Chain next a bs) : as = bs := by
  induction h generalizing bs with
  | nil => exact h'.head_zero.symm
  | cons a as hn ht ih =>
    obtain ⟨cs, rfl, hc⟩ := h'.head_ne hn
    exact congrArg (List.cons a) (ih hc)

/-- Only the links of the chain's own nodes matter. -/
theorem Chain.congr (h : Chain next a as) (he : ∀ b ∈ as, next' b = next b) :
    Chain next' a as := by
  induction h with
  | nil => exact .nil
  | cons a as hn ht ih =>
    refine .cons a as hn ?_
    rw [he a (by simp)]
    exact ih (fun b hb => he b (by simp [hb]))

/-- The executable walk: the first `n` nodes from `a` on. -/
def follow (next : Nat → Nat) : Nat → Nat → List Nat
  | 0, _ => []
  | n + 1, a => if a = 0 then [] else a :: follow next n (next a)

theorem Chain.follow (h : Chain next a as) (hn : as.length ≤ n) : follow next n a = as := by
  induction h generalizing n with
  | nil => cases n <;> simp [Lib.follow]
  | cons a as ha ht ih =>
    cases n with
    | zero => simp at hn
    | succ n => simp [Lib.follow, ha, ih (by simpa using hn)]

end Osmium.Lib
