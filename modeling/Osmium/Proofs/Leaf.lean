import Osmium.Proofs.Walk

namespace Osmium.Vm
open Lib

/-- `va'` takes the same entry as `va` at every level up to `l`. -/
def SamePath (va l va' : Nat) : Prop := ∀ k ≤ l, vpn va' k = vpn va k

instance (va l va' : Nat) : Decidable (SamePath va l va') :=
  inferInstanceAs (Decidable (∀ k ≤ l, vpn va' k = vpn va k))

theorem SamePath.look (h : SamePath va l vb) (m : Mem) (t : Nat) : look vb l m t = look va l m t := by
  induction l generalizing t with
  | zero => simp only [Vm.look, h 0 (Nat.le_refl 0)]
  | succ l ih =>
    rw [look_succ, look_succ, h (l + 1) (Nat.le_refl _)]
    exact congrArg _ (funext (ih fun k hk => h k (Nat.le_succ_of_le hk)))

theorem samePath_succ (va l va' : Nat) :
    SamePath va (l + 1) va' ↔ vpn va' (l + 1) = vpn va (l + 1) ∧ SamePath va l va' := by
  constructor
  · intro h
    exact ⟨h (l + 1) (Nat.le_refl _), fun k hk => h k (by omega)⟩
  · rintro ⟨h, ht⟩ k hk
    by_cases he : k = l + 1
    · exact he ▸ h
    · exact ht k (by omega)

/-- What writing one free leaf entry does to a table. -/
structure Stored (l va : Nat) (m m' : Mem) (t pte : Nat) : Prop where
  pages : ∀ leaf, (tree leaf (l + 1) m' t).Perm (leaf (pteToPa pte) ++ tree leaf (l + 1) m t)
  writes : WritesIn m m' (tabs (l + 1) m t)
  looks : ∀ va', look va' l m' t = if SamePath va l va' then some pte else look va' l m t
  gaps : ∀ va', missing va' l m' t = missing va' l m t
  dirs : Dirs l m t → Dirs l m' t

/-- The same behind one entry of the root, whose own entries do not change. -/
structure StoredAt (l va : Nat) (m m' : Mem) (t i pte : Nat) : Prop where
  pages : ∀ leaf, (under leaf (l + 1) m' t i).Perm
    (leaf (pteToPa pte) ++ under leaf (l + 1) m t i)
  root : SameOn m m' t 4096
  writes : WritesIn m m' (under (fun _ => []) (l + 1) m t i)
  looks : ∀ va', vpn va' (l + 1) = i → look va' (l + 1) m' t =
    if SamePath va (l + 1) va' then some pte else look va' (l + 1) m t
  gaps : ∀ va', vpn va' (l + 1) = i → missing va' (l + 1) m' t = missing va' (l + 1) m t
  dirs : (∀ c, child m t i = some c → Pointer (entry m t i) ∧ Dirs l m c) →
    ∀ c, child m' t i = some c → Pointer (entry m' t i) ∧ Dirs l m' c

def StoreSpec (va pte l : Nat) : Prop :=
  ∀ m t a, slot va l m t = some a → ¬Valid (load64 m a) → (tabs (l + 1) m t).Nodup →
    (∀ q ∈ tabs (l + 1) m t, q % 4096 = 0) → Stored l va m (store64 m a pte) t pte

theorem store_leaf_at (ih : StoreSpec va pte l) (hi : vpn va (l + 1) = i)
    (hs : slot va (l + 1) m t = some a) (hv : ¬Valid (load64 m a))
    (hn : (t :: under (fun _ => []) (l + 1) m t i).Nodup)
    (hp : ∀ q ∈ t :: under (fun _ => []) (l + 1) m t i, q % 4096 = 0) :
    StoredAt l va m (store64 m a pte) t i pte := by
  have hi' : i < 512 := hi ▸ vpn_lt va (l + 1)
  simp only [slot, hi] at hs
  cases hc : child m t i with
  | none => simp [hc] at hs
  | some c =>
    rw [under_some hc] at hn hp
    simp only [hc, Option.bind_some] at hs
    obtain ⟨ht, hnc⟩ := List.nodup_cons.mp hn
    have hst := ih m c a hs hv hnc (fun q hq => hp q (List.mem_cons_of_mem t hq))
    have hsame : SameOn m (store64 m a pte) t 4096 :=
      hst.writes.same (fun q hq => hp q (List.mem_cons_of_mem t hq)) (hp t (by simp)) ht
    have he := entry_congr hsame hi'
    have hc' := (child_congr he).trans hc
    refine ⟨?_, hsame, ?_, ?_, ?_, ?_⟩
    · intro leaf
      rw [under_some hc, under_some hc']
      exact hst.pages leaf
    · rw [under_some hc]
      exact hst.writes
    · intro va' hva'
      simp only [look, hva', hc, hc', Option.bind_some, samePath_succ, hi, true_and]
      exact hst.looks va'
    · intro va' hva'
      simp only [missing, hva', hc, hc', Option.elim_some]
      exact hst.gaps va'
    · intro hd d hcd
      rw [hc'] at hcd
      cases hcd
      rw [he]
      exact ⟨(hd c hc).1, hst.dirs (hd c hc).2⟩

/-- Writing a free leaf entry maps one page and disturbs no other path. -/
theorem store_leaf (hv : Valid pte) (hb : pte < 2 ^ 64) (va l : Nat) : StoreSpec va pte l := by
  induction l with
  | zero =>
    intro m t a hs hf hn hp
    simp only [slot, Option.some.injEq] at hs
    subst a
    have hi := vpn_lt va 0
    have hat : entry (store64 m (t + 8 * vpn va 0) pte) t (vpn va 0) = pte :=
      load64_store64 _ _ _ hb
    have hoff : ∀ j, j ≠ vpn va 0 →
        entry (store64 m (t + 8 * vpn va 0) pte) t j = entry m t j := fun j hj =>
      load64_store64_off _ _ _ _ (by unfold Apart; omega)
    refine ⟨?_, ?_, ?_, fun _ => rfl, fun _ => trivial⟩
    · intro leaf
      rw [tree_succ, tree_succ]
      have hkeep : ∀ j < 512, j ≠ vpn va 0 →
          under leaf 0 (store64 m (t + 8 * vpn va 0) pte) t j = under leaf 0 m t j := by
        intro j _ hj
        unfold under
        rw [child_congr (hoff j hj)]
        rfl
      have hnew : (under leaf 0 (store64 m (t + 8 * vpn va 0) pte) t (vpn va 0)).Perm
          (leaf (pteToPa pte) ++ under leaf 0 m t (vpn va 0)) := by
        rw [under_none (child_invalid hf), List.append_nil,
          under_some (child_valid (by rw [hat]; exact hv)), hat]
        rfl
      exact ((flatMap_range_change hi hkeep hnew).cons t).trans List.perm_middle.symm
    · exact (store64_writesIn m t _ pte hi).mono (by
        intro q hq
        rw [List.mem_singleton.mp hq]
        exact root_mem ..)
    · intro va'
      by_cases he : vpn va' 0 = vpn va 0
      · have hsp : SamePath va 0 va' := by
          intro k hk
          rw [Nat.le_zero.mp hk]
          exact he
        rw [if_pos hsp]
        simp only [look, he, hat, if_pos hv]
      · rw [if_neg (fun h => he (h 0 (Nat.le_refl 0)))]
        simp only [look, hoff _ he]
  | succ l ih =>
    intro m t a hs hf hn hp
    have hi := vpn_lt va (l + 1)
    have hperm := tree_pull (fun _ => []) (l + 1) m t hi
    have hnd := hperm.nodup_iff.mp hn
    have hpage : ∀ q ∈ t :: under (fun _ => []) (l + 1) m t (vpn va (l + 1)), q % 4096 = 0 :=
      fun q hq => hp q (hperm.mem_iff.mpr (List.mem_append_left _ hq))
    have hst := store_leaf_at ih rfl hs hf (List.nodup_append.mp hnd).1 hpage
    have hsub : ∀ q ∈ under (fun _ => []) (l + 1) m t (vpn va (l + 1)), q ∈ tabs (l + 2) m t :=
      fun q hq => hperm.mem_iff.mpr (List.mem_append_left _ (List.mem_cons_of_mem t hq))
    have hother : ∀ j < 512, j ≠ vpn va (l + 1) → ∀ c, child m t j = some c →
        ∀ q ∈ tabs (l + 1) m c, SameOn m (store64 m a pte) q 4096 := by
      intro j hj hne c hc q hq
      have hqr := beside_mem hj hne hc hq
      refine hst.writes.same (fun p h => hpage p (List.mem_cons_of_mem t h))
        (hp q (hperm.mem_iff.mpr (List.mem_append_right _ hqr))) ?_
      exact fun hx => not_mem_of_perm hnd (List.Perm.refl _) hqr (List.mem_cons_of_mem t hx)
    refine ⟨?_, hst.writes.mono hsub, ?_, ?_, ?_⟩
    · intro leaf
      rw [tree_succ, tree_succ]
      have hkeep : ∀ j < 512, j ≠ vpn va (l + 1) →
          under leaf (l + 1) (store64 m a pte) t j = under leaf (l + 1) m t j := by
        intro j hj hne
        have hce := child_congr (entry_congr hst.root hj)
        cases hc : child m t j with
        | none => rw [under_none hc, under_none (hce.trans hc)]
        | some c =>
          rw [under_some hc, under_some (hce.trans hc)]
          exact tree_congr (hother j hj hne c hc)
      exact ((flatMap_range_change hi hkeep (hst.pages leaf)).cons t).trans
        List.perm_middle.symm
    · intro va'
      by_cases he : vpn va' (l + 1) = vpn va (l + 1)
      · exact hst.looks va' he
      · rw [if_neg (fun h => he (h (l + 1) (Nat.le_refl _)))]
        have hce := child_congr (entry_congr hst.root (vpn_lt va' (l + 1)))
        simp only [look, hce]
        cases hc : child m t (vpn va' (l + 1)) with
        | none => rfl
        | some c => exact look_congr (hother _ (vpn_lt va' (l + 1)) he c hc)
    · intro va'
      by_cases he : vpn va' (l + 1) = vpn va (l + 1)
      · exact hst.gaps va' he
      · have hce := child_congr (entry_congr hst.root (vpn_lt va' (l + 1)))
        simp only [missing, hce]
        cases hc : child m t (vpn va' (l + 1)) with
        | none => rfl
        | some c => exact missing_congr (hother _ (vpn_lt va' (l + 1)) he c hc)
    · intro hd j hj c hc
      have hentry := entry_congr hst.root hj
      by_cases he : j = vpn va (l + 1)
      · subst he
        exact hst.dirs (hd _ hi) c hc
      · rw [child_congr hentry] at hc
        rw [hentry]
        exact ⟨(hd j hj c hc).1, (hd j hj c hc).2.congr (hother j hj he c hc)⟩

end Osmium.Vm
