import Mathlib.Algebra.GroupWithZero.Nat
import Mathlib.Data.List.Nodup
import Mathlib.Data.List.Perm.Basic

namespace Osmium.Lib

/-- Pull the contribution of one index out of a concatenation. -/
theorem flatMap_range_pull (f : Nat → List α) (hi : i < n) :
    ((List.range n).flatMap f).Perm (f i ++ ((List.range n).erase i).flatMap f) := by
  have h := List.perm_cons_erase (List.mem_range.mpr hi)
  exact (h.flatMap_right f).trans (by simp)

theorem mem_range_erase : j ∈ (List.range n).erase i ↔ j ≠ i ∧ j < n := by
  rw [List.nodup_range.mem_erase_iff, List.mem_range]

/-- Changing one index changes the concatenation by what that index gains. -/
theorem flatMap_range_change {f g : Nat → List α} (hi : i < n)
    (he : ∀ j < n, j ≠ i → g j = f j) (hp : (g i).Perm (new ++ f i)) :
    ((List.range n).flatMap g).Perm (new ++ (List.range n).flatMap f) := by
  have hrest : ((List.range n).erase i).flatMap g = ((List.range n).erase i).flatMap f := by
    apply List.flatMap_congr
    intro j hj
    obtain ⟨hne, hlt⟩ := mem_range_erase.mp hj
    exact he j hlt hne
  calc ((List.range n).flatMap g).Perm (g i ++ ((List.range n).erase i).flatMap g) :=
        flatMap_range_pull g hi
    _ = g i ++ ((List.range n).erase i).flatMap f := by rw [hrest]
    List.Perm _ (new ++ f i ++ ((List.range n).erase i).flatMap f) := hp.append_right _
    _ = new ++ (f i ++ ((List.range n).erase i).flatMap f) := List.append_assoc ..
    List.Perm _ (new ++ (List.range n).flatMap f) :=
        (flatMap_range_pull f hi).symm.append_left new

theorem range_append_range' (hj : j ≤ n) : List.range j ++ List.range' j (n - j) = List.range n := by
  rw [List.range_eq_range', List.range_eq_range']
  have h := @List.range'_append_1 0 j (n - j)
  rwa [Nat.zero_add, Nat.add_sub_cancel' hj] at h

/-- A list around one of its places. -/
theorem split_at {l : List α} (h : l[i]? = some x) :
    ∃ pre post, l = pre ++ x :: post ∧ (∀ y, l.set i y = pre ++ y :: post) ∧
      ∀ f, l.modify i f = pre ++ f x :: post := by
  induction l generalizing i with
  | nil => simp at h
  | cons a l ih =>
    cases i with
    | zero =>
      obtain rfl := Option.some.inj h
      exact ⟨[], l, rfl, fun _ => rfl, fun _ => rfl⟩
    | succ i =>
      obtain ⟨pre, post, rfl, hs, hm⟩ := ih h
      exact ⟨a :: pre, post, rfl, fun y => congrArg (List.cons a) (hs y),
        fun f => congrArg (List.cons a) (hm f)⟩

/-- In a concatenation without duplicates an element has one origin. -/
theorem flatMap_origin {l : List α} {f : α → List β} (hn : (l.flatMap f).Nodup) (hi : i ∈ l) (hj : j ∈ l)
    (hx : x ∈ f i) (hy : x ∈ f j) : i = j := by
  induction l with
  | nil => cases hi
  | cons a l ih =>
    rw [List.flatMap_cons, List.nodup_append] at hn
    obtain ⟨_, hn, hd⟩ := hn
    rcases List.mem_cons.mp hi with rfl | hi'
    · rcases List.mem_cons.mp hj with rfl | hj'
      · rfl
      · exact absurd rfl (hd x hx x (List.mem_flatMap.mpr ⟨j, hj', hy⟩))
    · rcases List.mem_cons.mp hj with rfl | hj'
      · exact absurd rfl (hd x hy x (List.mem_flatMap.mpr ⟨i, hi', hx⟩))
      · exact ih hn hi' hj'

theorem nodup_of_flatMap {l : List α} {f : α → List β} (hn : (l.flatMap f).Nodup) (hi : i ∈ l) :
    (f i).Nodup :=
  (List.nodup_flatMap.mp hn).1 i hi

/-- Where all but the elements that pass `p` contribute nothing. -/
theorem length_flatMap_le (p : α → Bool) (xs : List α) (f : α → List β)
    (h : ∀ x ∈ xs, (f x).length ≤ if p x then b else 0) :
    (xs.flatMap f).length ≤ (xs.filter p).length * b := by
  induction xs with
  | nil => exact Nat.zero_le _
  | cons x xs ih =>
    have hx := h x List.mem_cons_self
    have hxs := ih fun y hy => h y (List.mem_cons_of_mem _ hy)
    rw [List.flatMap_cons, List.length_append, List.filter_cons]
    split at hx
    next hp =>
      rw [if_pos hp, List.length_cons, Nat.succ_mul]
      omega
    next hp =>
      rw [if_neg hp]
      omega

/-- No part can make up for a shorter one. -/
theorem append_eq_append_of_le {a b c d : List α} (h : a.length ≤ b.length)
    (h' : c.length ≤ d.length) : a ++ c = b ++ d ↔ a = b ∧ c = d := by
  refine ⟨fun he => ?_, fun he => by rw [he.1, he.2]⟩
  have hlen := congrArg List.length he
  rw [List.length_append, List.length_append] at hlen
  exact List.append_inj he (by omega)

end Osmium.Lib
