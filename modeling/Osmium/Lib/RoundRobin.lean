import Mathlib.Algebra.GroupWithZero.Nat
import Mathlib.Data.List.Basic

namespace Osmium.Lib.RoundRobin

/-- The first ready slot from `next` on, around a table of `n` slots. -/
def scan (ready : Nat → Bool) (n next : Nat) : Option Nat :=
  ((List.range n).map (fun i => (next + i) % n)).find? ready

variable {ready : Nat → Bool} {n next i j : Nat}

/-- How far the scan goes before it comes to a slot. -/
theorem distance (hn : next ≤ n) (hi : i < n) : ∃ d < n, (next + d) % n = i ∧
    (next + d = i ∨ next + d = n + i ∧ i < next) := by
  by_cases h : next ≤ i
  · refine ⟨i - next, by omega, ?_, by omega⟩
    rw [Nat.add_sub_cancel' h]
    exact Nat.mod_eq_of_lt hi
  · refine ⟨n + i - next, by omega, ?_, by omega⟩
    rw [Nat.add_sub_cancel' (by omega), Nat.add_mod_left]
    exact Nat.mod_eq_of_lt hi

/-- The scan stops at a ready slot, and passed no ready slot on its way. -/
theorem scan_some (h : scan ready n next = some j) : ready j = true ∧ ∃ d < n,
    (next + d) % n = j ∧ ∀ c < d, ready ((next + c) % n) = false := by
  unfold scan at h
  rw [List.find?_map, Option.map_eq_some_iff] at h
  obtain ⟨d, hd, rfl⟩ := h
  obtain ⟨hready, hlt, hbefore⟩ := List.find?_range_eq_some.mp hd
  refine ⟨hready, d, List.mem_range.mp hlt, rfl, fun c hc => ?_⟩
  simpa using hbefore c hc

theorem scan_total (hn : next ≤ n) (hi : i < n) (hr : ready i = true) :
    ∃ j, scan ready n next = some j := by
  obtain ⟨d, hd, he, _⟩ := distance hn hi
  cases h : scan ready n next with
  | some j => exact ⟨j, rfl⟩
  | none =>
    have hnone := List.find?_eq_none.mp h i
      (List.mem_map.mpr ⟨d, List.mem_range.mpr hd, he⟩)
    exact absurd hr hnone

/-- How many other slots can come before the turn of slot `i`, in a table that
may grow to `N` slots. -/
def wait (N i next : Nat) : Nat := if i < next then N - next + i else i - next

theorem wait_le (hi : i < N) (next : Nat) : wait N i next ≤ N - 1 := by
  unfold wait
  split <;> omega

/-- While slot `i` is ready, every other slot that the scan prefers brings its
turn closer. -/
theorem wait_pick (hn : next ≤ n) (hN : n ≤ N) (hi : i < n) (hr : ready i = true)
    (h : scan ready n next = some j) (hne : j ≠ i) : wait N i (j + 1) < wait N i next := by
  obtain ⟨_, d, hd, hj, hbefore⟩ := scan_some h
  obtain ⟨c, hc, hci, hat⟩ := distance hn hi
  have hlt : d < c := by
    rcases Nat.lt_trichotomy d c with hlt | rfl | hgt
    · exact hlt
    · exact absurd (hj.symm.trans hci) hne
    · have hno := hbefore c hgt
      rw [hci, hr] at hno
      cases hno
  have hwhere : j = next + d ∨ j + n = next + d := by
    by_cases hw : next + d < n
    · exact .inl (hj.symm.trans (Nat.mod_eq_of_lt hw))
    · rw [Nat.mod_eq_sub_mod (by omega), Nat.mod_eq_of_lt (by omega)] at hj
      omega
  have hjn : j < n := by
    rw [← hj]
    exact Nat.mod_lt _ (by omega)
  unfold wait
  split <;> split <;> omega

end Osmium.Lib.RoundRobin
