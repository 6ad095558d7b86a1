import Osmium.Lib.Ends
import Osmium.Proofs.Leaf

namespace Osmium.Vm
open Lib

variable {L : Layout} {pool : PagePool L.allocStart}

/-- A page mapped behind one entry of a root: the new tables, the frame, and one
changed translation. -/
structure MappedAt (va : Nat) (m m' : Mem) (t i pte : Nat) (new : List Nat) : Prop where
  pages : ∀ leaf, (under leaf 2 m' t i).Perm (new ++ leaf (pteToPa pte) ++ under leaf 2 m t i)
  others : ∀ j < 512, j ≠ i → entry m' t j = entry m t j
  writes : WritesIn m m' (t :: new ++ under (fun _ => []) 2 m t i)
  looks : ∀ va', vpn va' 2 = i → look va' 2 m' t =
    if SamePath va 2 va' then some pte else look va' 2 m t
  gaps : ∀ va', vpn va' 2 = i → missing va' 2 m' t = min (missing va' 2 m t) (split va va' 1)
  dirs : (∀ c, child m t i = some c → Pointer (entry m t i) ∧ Dirs 1 m c) →
    ∀ c, child m' t i = some c → Pointer (entry m' t i) ∧ Dirs 1 m' c

/-- `map_pages` over one page, split into its walk and its write. -/
theorem mapPage_cases (h : mapPage P t va pa perm = .ok P') :
    ∃ a P₁, va < vaMax ∧ walkFrom va true 2 P t = .ok (some a, P₁) ∧
      ¬Valid (load64 P₁.mem a) ∧
      P' = { P₁ with mem := store64 P₁.mem a (paToPte pa ||| leafFlags perm) } := by
  unfold mapPage at h
  rw [bind_ok] at h
  obtain ⟨⟨o, P₁⟩, hw, hr⟩ := h
  unfold walk at hw
  split at hw
  · rename_i hva
    cases o with
    | none => cases hr
    | some a =>
      dsimp only at hr
      split at hr
      · cases hr
      · rename_i hv
        simp only [Except.ok.injEq] at hr
        rw [← hr, leaf_pte_eq]
        exact ⟨a, P₁, hva, hw, hv, rfl⟩
  · cases hw

theorem look_none_of_slot (hs : slot va l m t = some a) (hv : ¬Valid (load64 m a)) :
    look va l m t = none := by
  rw [look_slot, hs]
  simp [hv]

/-- Mapping a page behind entry `i` of a root whose other entries are shared. -/
theorem mapPage_at (hpool : Pool pool P held) (hi : vpn va 2 = i)
    (hheld : held.Perm (t :: under (fun _ => []) 2 P.mem t i ++ rest))
    (hpa : pa % 4096 = 0) (hpb : pa < 2 ^ 64) (hperm : perm < 256)
    (h : mapPage P t va pa perm = .ok P') :
    ∃ new, Pool pool P' (new ++ held) ∧
      MappedAt va P.mem P'.mem t i (paToPte pa ||| leafFlags perm) new ∧
      P'.freePages + new.length = P.freePages ∧ new.length = missing va 2 P.mem t ∧ va < vaMax ∧
      look va 2 P.mem t = none := by
  obtain ⟨a, P₁, hva, hw, hv, rfl⟩ := mapPage_cases h
  obtain ⟨new, hp₁, hg, htk, hslot⟩ :=
    walk_grow_at (walk_grow pool va 1) hpool hi hheld hw
  have hs := (hslot a rfl).slot
  obtain ⟨hlv, hla, hlb, _⟩ := leaf_pte hpa hpb hperm
  have hi' : i < 512 := hi ▸ vpn_lt va 2
  have hheld₁ : (new ++ held).Perm (t :: under (fun _ => []) 2 P₁.mem t i ++ rest) := by
    refine (hheld.append_left new).trans ?_
    rw [List.cons_append, List.cons_append]
    refine List.perm_middle.trans (List.Perm.cons t ?_)
    rw [← List.append_assoc]
    exact (hg.pages (fun _ => [])).symm.append_right rest
  have hnd := (List.nodup_append.mp (hheld₁.nodup_iff.mp hp₁.nodup)).1
  have hpage : ∀ q ∈ t :: under (fun _ => []) 2 P₁.mem t i, q % 4096 = 0 :=
    fun q hq => hp₁.page (hheld₁.mem_iff.mpr (List.mem_append_left _ hq))
  have hst := store_leaf_at (store_leaf hlv hlb va 1) hi hs hv hnd hpage
  have hnone : look va 2 P.mem t = none := by
    rw [← hg.looks va hi]
    exact look_none_of_slot hs hv
  refine ⟨new, ?_, ⟨?_, ?_, ?_, ?_, ?_, ?_⟩, htk.count, htk.all nofun, hva, hnone⟩
  · refine hp₁.write rfl rfl (hst.writes.mono ?_)
    intro q hq
    exact hheld₁.mem_iff.mpr (List.mem_append_left _ (List.mem_cons_of_mem t hq))
  · intro leaf
    refine (hst.pages leaf).trans (((hg.pages leaf).append_left _).trans ?_)
    rw [← List.append_assoc]
    exact List.perm_append_comm.append_right _
  · intro j hj hne
    rw [entry_congr hst.root hj]
    exact hg.others j hj hne
  · refine hg.writes.trans (hst.writes.mono ?_)
    intro q hq
    have hq := ((hg.pages (fun _ => [])).mem_iff.mp hq)
    exact List.mem_cons_of_mem t hq
  · intro va' hva'
    rw [hst.looks va' hva', hg.looks va' hva']
  · intro va' hva'
    rw [hst.gaps va' hva']
    exact (hslot a rfl).gaps va' hva'
  · intro hd
    exact hst.dirs (hg.dirs hd)

/-- Mapping an unmapped page fails only for want of a page for its tables. -/
theorem mapPage_ends_at (pa perm : Nat) (hpool : Pool pool P held) (hi : vpn va 2 = i)
    (hheld : held.Perm (t :: under (fun _ => []) 2 P.mem t i ++ rest)) (hva : va < vaMax)
    (hnone : look va 2 P.mem t = none) :
    Ends (fun e => e = .outOfPages ∧ P.freePages < missing va 2 P.mem t) (mapPage P t va pa perm)
      (fun _ => True) := by
  obtain ⟨⟨o, P₁⟩, hw⟩ := walk_total_at (walk_total pool va 1) hpool hi hheld
  obtain ⟨new, _, hg, htk, hslot⟩ := walk_grow_at (walk_grow pool va 1) hpool hi hheld hw
  unfold mapPage walk
  rw [if_pos hva, hw]
  cases o with
  | none =>
    have hc := htk.count
    have he : P₁.freePages = 0 ∧ new.length < missing va 2 P.mem t := htk.empty rfl
    exact .error ⟨rfl, by omega⟩
  | some a =>
    have hv : ¬Valid (load64 P₁.mem a) := by
      have hl := (hg.looks va hi).trans hnone
      rw [look_slot, (hslot a rfl).slot] at hl
      simpa using hl
    simp only [ok_bind, if_neg hv]
    exact .ok trivial

/-- `n` pages mapped anywhere in a table that owns all its entries. -/
structure Mapped (va n pa perm : Nat) (m m' : Mem) (t : Nat) (new : List Nat) : Prop where
  tables : (tabs 3 m' t).Perm (new ++ tabs 3 m t)
  writes : WritesIn m m' (new ++ tabs 3 m t)
  looks : ∀ v < vaMax, look v 2 m' t =
    if va ≤ v ∧ v < va + 4096 * n then some (paToPte (pa + (v / 4096 * 4096 - va)) ||| leafFlags perm)
    else look v 2 m t
  leaves : ∀ v e, look v 2 m' t = some e → look v 2 m t = some e ∨
    ∃ p, p % 4096 = 0 ∧ pa ≤ p ∧ p < pa + 4096 * n ∧ e = paToPte p ||| leafFlags perm
  dirs : Dirs 2 m t → Dirs 2 m' t
  others : ∀ j < 512, (∀ k < n, vpn (va + 4096 * k) 2 ≠ j) → entry m' t j = entry m t j

theorem Mapped.refl (va pa perm : Nat) (m : Mem) (t : Nat) : Mapped va 0 pa perm m m t [] where
  tables := by simp
  writes := WritesIn.refl _ _
  looks v _ := by rw [if_neg (by omega)]
  leaves _ _ h := Or.inl h
  dirs := id
  others _ _ _ := rfl

/-- One more page at the end of a mapped range. -/
theorem Mapped.step (h : Mapped va n pa perm m m₁ t new) (hva : va % 4096 = 0)
    (hpa : pa % 4096 = 0)
    (hg : Grown 2 m₁ m₂ t new')
    (ho : ∀ j < 512, j ≠ vpn (va + 4096 * n) 2 → entry m₂ t j = entry m₁ t j)
    (hst : Stored 2 (va + 4096 * n) m₂ m' t (paToPte (pa + 4096 * n) ||| leafFlags perm))
    (hso : SameOn m₂ m' t 4096) (hlt : va + 4096 * n < vaMax) :
    Mapped va (n + 1) pa perm m m' t (new' ++ new) := by
  have htab := hst.pages (fun _ => [])
  have hgt := hg.pages (fun _ => [])
  refine ⟨?_, ?_, ?_, ?_, fun hd => hst.dirs (hg.dirs (h.dirs hd)), ?_⟩
  · refine htab.trans (hgt.trans ?_)
    rw [List.append_assoc]
    exact h.tables.append_left new'
  · have h1 : WritesIn m m₁ (new' ++ new ++ tabs 3 m t) :=
      h.writes.mono (fun p hp => by rw [List.append_assoc]; exact List.mem_append_right _ hp)
    have h2 : WritesIn m₁ m₂ (new' ++ new ++ tabs 3 m t) := by
      refine hg.writes.mono (fun p hp => ?_)
      rw [List.append_assoc]
      exact ((h.tables.append_left new').mem_iff).mp hp
    have h3 : WritesIn m₂ m' (new' ++ new ++ tabs 3 m t) := by
      refine hst.writes.mono (fun p hp => ?_)
      rw [List.append_assoc]
      exact ((h.tables.append_left new').mem_iff).mp (hgt.mem_iff.mp hp)
    exact h1.trans (h2.trans h3)
  · intro v hv
    rw [hst.looks v, hg.looks v, h.looks v hv]
    have hpath : SamePath (va + 4096 * n) 2 v ↔ v / 4096 = (va + 4096 * n) / 4096 :=
      vpn_inj hv hlt
    by_cases hc : v / 4096 = (va + 4096 * n) / 4096
    · rw [if_pos (hpath.mpr hc), if_pos (by omega)]
      have he : v / 4096 * 4096 - va = 4096 * n := by omega
      rw [he]
    · rw [if_neg (fun hp => hc (hpath.mp hp))]
      by_cases hin : va ≤ v ∧ v < va + 4096 * n
      · rw [if_pos hin, if_pos (by omega)]
      · rw [if_neg hin, if_neg (by omega)]
  · intro v e he
    rw [hst.looks v, hg.looks v] at he
    split at he
    · exact .inr ⟨pa + 4096 * n, by omega, by omega, by omega, (Option.some.inj he).symm⟩
    · rcases h.leaves v e he with hold | ⟨p, hp, hlo, hhi, rfl⟩
      · exact .inl hold
      · exact .inr ⟨p, hp, hlo, by omega, rfl⟩
  · intro j hj hne
    rw [entry_congr hso hj, ho j hj (fun he => hne n (Nat.lt_succ_self n) he.symm)]
    exact h.others j hj (fun k hk => hne k (Nat.lt_succ_of_lt hk))

/-- One page of `map_pages` on a table that owns all its entries, as a walk to
memory `m₂` followed by one write. -/
theorem mapPage_whole (hpool : Pool pool P held)
    (hheld : held.Perm (tabs 3 P.mem t ++ rest)) (hpa : pa % 4096 = 0) (hpb : pa < 2 ^ 64)
    (hperm : perm < 256) (h : mapPage P t va pa perm = .ok P') :
    ∃ new m₂, Pool pool P' (new ++ held) ∧ va < vaMax ∧ Grown 2 P.mem m₂ t new ∧
      (∀ j < 512, j ≠ vpn va 2 → entry m₂ t j = entry P.mem t j) ∧
      Stored 2 va m₂ P'.mem t (paToPte pa ||| leafFlags perm) ∧ SameOn m₂ P'.mem t 4096 ∧
      P'.freePages + new.length = P.freePages ∧ new.length ≤ 2 := by
  obtain ⟨a, P₁, hva, hw, hv, rfl⟩ := mapPage_cases h
  obtain ⟨new, hp₁, hg, htk, hslot⟩ := walk_grow pool va 2 P P₁ t held rest _ hpool hheld hw
  have hs := (hslot a rfl).slot
  obtain ⟨hlv, _, hlb, _⟩ := leaf_pte hpa hpb hperm
  have hheld₁ : (new ++ held).Perm (tabs 3 P₁.mem t ++ rest) := by
    refine (hheld.append_left new).trans ?_
    rw [← List.append_assoc]
    exact (hg.pages _).symm.append_right rest
  have hnd := (List.nodup_append.mp (hheld₁.nodup_iff.mp hp₁.nodup)).1
  have hpage : ∀ q ∈ tabs 3 P₁.mem t, q % 4096 = 0 :=
    fun q hq => hp₁.page (hheld₁.mem_iff.mpr (List.mem_append_left _ hq))
  have hst := store_leaf hlv hlb va 2 P₁.mem t a hs hv hnd hpage
  have hpull := tree_pull (fun _ => []) 2 P.mem t (vpn_lt va 2)
  have hpull₁ := tree_pull (fun _ => []) 2 P₁.mem t (vpn_lt va 2)
  refine ⟨new, P₁.mem, ?_, hva, hg, ?_, hst, ?_, htk.count,
    Nat.le_trans (Nat.le_of_eq (htk.all nofun)) (missing_le ..)⟩
  · have hw' : WritesIn P₁.mem (store64 P₁.mem a (paToPte pa ||| leafFlags perm)) (new ++ held) :=
      hst.writes.mono (fun q hq => hheld₁.mem_iff.mpr (List.mem_append_left _ hq))
    exact hp₁.write_mem hw'
  · have hat : held.Perm (t :: under (fun _ => []) 2 P.mem t (vpn va 2) ++
        (beside (fun _ => []) 2 P.mem t (vpn va 2) ++ rest)) := by
      rw [← List.append_assoc]
      exact hheld.trans (hpull.append_right rest)
    obtain ⟨_, _, hga, _, _⟩ := walk_grow_at (walk_grow pool va 1) hpool rfl hat hw
    exact hga.others
  · have hnd' := (List.nodup_append.mp (hpull₁.nodup_iff.mp hnd)).1
    exact (store_leaf_at (store_leaf hlv hlb va 1) rfl hs hv hnd'
      (fun q hq => hpage q (hpull₁.mem_iff.mpr (List.mem_append_left _ hq)))).root

/-- `map_pages` stopped for want of pages: `n` pages in, with `new` for tables. -/
def RanOut (P : Phys) (t va pa size perm : Nat) : Prop :=
  ∃ n new m, 4096 * n < size ∧ Mapped va n pa perm P.mem m t new ∧ new.length ≤ 2 * n ∧
    P.freePages ≤ new.length + 1

/-- `map_pages` on a table that owns all its entries, over a range that nothing
maps yet. -/
theorem mapPages_ends (hpool : Pool pool P held) (hheld : held.Perm (tabs 3 P.mem t ++ rest))
    (hva : va % 4096 = 0) (hpa : pa % 4096 = 0) (hsize : size % 4096 = 0) (hpos : 0 < size)
    (hperm : perm < 256) (hflags : perm &&& permMask ≠ 0) (hb : pa + size ≤ 2 ^ 64)
    (hend : va + size ≤ vaMax) (hblank : ∀ v, va ≤ v → v < va + size → look v 2 P.mem t = none) :
    Ends (fun e => e = .outOfPages ∧ RanOut P t va pa size perm) (mapPages P t va pa size perm)
      (fun P' => ∃ new, Pool pool P' (new ++ held) ∧
        Mapped va (size / 4096) pa perm P.mem P'.mem t new) := by
  unfold mapPages
  rw [if_neg (not_not.mpr ⟨hva, hpa, hsize⟩), if_neg (Nat.ne_of_gt hpos), if_neg hflags]
  refine (Ends.loop_range (fun i Q => ∃ new, Pool pool Q (new ++ held) ∧
    Mapped va i pa perm P.mem Q.mem t new ∧ Q.freePages + new.length = P.freePages ∧
      new.length ≤ 2 * i) ⟨[], hpool, Mapped.refl .., rfl, Nat.le_refl _⟩ ?_).mono
    fun _ ⟨new, hp', hm, _⟩ => ⟨new, hp', hm⟩
  rintro i Q hi ⟨new, hq, hm, hcount, hfew⟩
  have hin : 4096 * i < size := by
    unfold pageSize at hi
    omega
  have hq' : (new ++ held).Perm (tabs 3 Q.mem t ++ rest) := by
    refine (hheld.append_left new).trans ?_
    rw [← List.append_assoc]
    exact hm.tables.symm.append_right rest
  have hlt : va + 4096 * i < vaMax := by omega
  have hnone : look (va + 4096 * i) 2 Q.mem t = none := by
    rw [hm.looks _ hlt, if_neg (by omega)]
    exact hblank _ (by omega) (by omega)
  have hat : (new ++ held).Perm (t :: under (fun _ => []) 2 Q.mem t (vpn (va + 4096 * i) 2) ++
      (beside (fun _ => []) 2 Q.mem t (vpn (va + 4096 * i) 2) ++ rest)) := by
    rw [← List.append_assoc]
    exact hq'.trans ((tree_pull _ 2 Q.mem t (vpn_lt _ 2)).append_right rest)
  have hpage := mapPage_ends_at (pa + 4096 * i) perm hq rfl hat hlt hnone
  rw [show i * pageSize = 4096 * i from Nat.mul_comm _ _]
  refine ⟨fun hrun => ?_, fun he => ⟨(hpage.failure he).1, i, new, Q.mem, hin, hm, hfew, ?_⟩⟩
  · obtain ⟨new', m₂, hp', _, hg, ho, hst, hso, hcount', hfew'⟩ :=
      mapPage_whole hq hq' (by omega) (by omega) hperm hrun
    refine ⟨new' ++ new, ?_, hm.step hva hpa hg ho hst hso hlt, ?_, ?_⟩
    · rw [List.append_assoc]
      exact hp'
    · rw [List.length_append]
      omega
    · rw [List.length_append]
      omega
  · have := (hpage.failure he).2
    have := missing_le (va + 4096 * i) 2 Q.mem t
    omega

end Osmium.Vm
