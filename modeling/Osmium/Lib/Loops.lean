import Mathlib.Algebra.GroupWithZero.Nat
import Mathlib.Data.List.Basic

namespace Osmium.Lib

/-- Peel one step off a computation that can fail. -/
theorem bind_ok {x : Except ε α} {f : α → Except ε β} {b : β} :
    (x >>= f) = .ok b ↔ ∃ a, x = .ok a ∧ f a = .ok b := by
  cases x with
  | error e => simp [bind, Except.bind]
  | ok a => simp [bind, Except.bind]

@[simp] theorem pure_ok (a : α) : (pure a : Except ε α) = .ok a := rfl

@[simp] theorem ok_bind (a : α) (f : α → Except ε β) : (Except.ok a >>= f) = f a := rfl

/-- What an iteration preserves holds when the loop is left. -/
theorem loop_range {f : σ → Nat → Except ε σ} {n : Nat} (I : Nat → σ → Prop)
    (start : I 0 s)
    (step : ∀ i s s', i < n → I i s → f s i = .ok s' → I (i + 1) s')
    (run : (List.range n).foldlM f s = .ok s') : I n s' := by
  induction n generalizing s' with
  | zero =>
    simp only [List.range_zero, List.foldlM_nil, pure_ok, Except.ok.injEq] at run
    exact run ▸ start
  | succ n ih =>
    simp only [List.range_succ, List.foldlM_append, bind_ok] at run
    obtain ⟨t, ht, hs⟩ := run
    simp only [List.foldlM_cons, List.foldlM_nil, bind_ok, pure_ok] at hs
    obtain ⟨u, hu, he⟩ := hs
    simp only [Except.ok.injEq] at he
    subst u
    exact step n t s' (Nat.lt_succ_self n)
      (ih (fun i a b hi => step i a b (Nat.lt_succ_of_lt hi)) ht) hu

/-- A loop whose every iteration succeeds under the invariant succeeds. -/
theorem loop_range_total {f : σ → Nat → Except ε σ} {n : Nat} (I : Nat → σ → Prop)
    (start : I 0 s)
    (step : ∀ i s, i < n → I i s → ∃ s', f s i = .ok s' ∧ I (i + 1) s') :
    ∃ s', (List.range n).foldlM f s = .ok s' ∧ I n s' := by
  induction n with
  | zero => exact ⟨s, rfl, start⟩
  | succ n ih =>
    obtain ⟨t, ht, hi⟩ := ih (fun i a hi => step i a (Nat.lt_succ_of_lt hi))
    obtain ⟨u, hu, hj⟩ := step n t (Nat.lt_succ_self n) hi
    refine ⟨u, ?_, hj⟩
    simp [List.range_succ, List.foldlM_append, ht, hu]

end Osmium.Lib
